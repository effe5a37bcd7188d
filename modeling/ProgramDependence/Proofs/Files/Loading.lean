import Mathlib.Data.String.Basic
import ProgramDependence.Files.Corpus
import ProgramDependence.Proofs.Files.Listing
import ProgramDependence.Proofs.Files.Stored

/-! What is loaded does not show in which order folders and archives list their entries, nor in which order the
class path is given. Everything is taken in the order of its path, and a path stands for one thing only. An
error shows one thing more: which of several entries that cannot be listed comes first. That is seen in its
cause, never in its message. -/
namespace ProgramDependence

/-! ### Archives -/

namespace Archive

theorem mapM_cases (f : α → Except ε β) (l : List α) :
    (∃ e, .error e ∈ l.map f ∧ l.mapM f = .error e) ∨
      ((∀ e, .error e ∉ l.map f) ∧ l.mapM f = .ok ((l.map f).filterMap Except.toOption)) := by
  induction l with
  | nil => exact .inr ⟨fun _ => List.not_mem_nil, rfl⟩
  | cons x l ih =>
    rw [List.mapM_cons, List.map_cons]
    cases first : f x with
    | error e => exact .inl ⟨e, List.mem_cons_self, rfl⟩
    | ok y =>
      rcases ih with ⟨e, member, failed⟩ | ⟨none, done⟩
      · exact .inl ⟨e, List.mem_cons_of_mem _ member, by rw [failed]; rfl⟩
      · refine .inr ⟨fun e member => ?_, by rw [done]; rfl⟩
        rcases List.mem_cons.mp member with same | later
        · cases same
        · exact none e later

variable {a a' : Archive} {e : ArchiveEntry}

/-- Some entry cannot be opened, or all of them can. -/
theorem documents_cases (a : Archive) :
    (∃ cause, .error cause ∈ a.listing ∧ a.documents = .error cause) ∨
      ((∀ cause, .error cause ∉ a.listing) ∧
        a.documents = .ok ((a.opened.filter fun e => !e.isFolder && isDocument e.name).map (·.name))) := by
  unfold documents
  rcases mapM_cases a.byIndex (List.range a.count) with ⟨cause, member, failed⟩ | ⟨none, done⟩
  · exact .inl ⟨cause, member, by rw [failed]; rfl⟩
  · exact .inr ⟨none, by rw [done]; rfl⟩

theorem opened_of_listing {l : List ι} {entry : ι → ArchiveEntry} (listing : a.listing = l.map fun x => .ok (entry x)) :
    a.opened = l.map entry := by
  rw [Archive.opened, listing, List.filterMap_map]
  exact congrFun List.filterMap_eq_map l

theorem Relisted.opened (relisted : a.Relisted a') : a.opened.Perm a'.opened :=
  relisted.perm.filterMap _

/-- Both archives find the same entry under a name. -/
theorem Relisted.read (relisted : a.Relisted a') (lawful : a.Lawful) (lawful' : a'.Lawful)
    (member : e ∈ a.opened) : a'.read e.name = a.read e.name := by
  have found := lawful relisted.distinct e member
  have found' := lawful' ((relisted.opened.map _).nodup_iff.mp relisted.distinct) e
    (relisted.opened.mem_iff.mp member)
  rw [Archive.read, Archive.read, found, found']

end Archive

namespace Loaded

/-! ### Errors seen through a function -/

theorem mapError_id (r : Except ε α) : r.mapError id = r := by
  cases r <;> rfl

theorem bind_mapError {g : ε → β} {x x' : Except ε α} {next next' : α → Except ε γ}
    (same : x'.mapError g = x.mapError g) (rest : ∀ y, (next' y).mapError g = (next y).mapError g) :
    (x' >>= next').mapError g = (x >>= next).mapError g := by
  cases x with
  | error e =>
    cases x' with
    | error e' => exact congrArg Except.error (Except.error.inj same)
    | ok y' => cases same
  | ok y =>
    cases x' with
    | error e' => cases same
    | ok y' =>
      obtain rfl := Except.ok.inj same
      exact rest y'

/-! ### Results in order -/

section InOrder

variable {ε β : Type} {results results' : List (String × Except ε Loaded)}

theorem pairwise_sorted (results : List (String × Except ε Loaded)) :
    (results.mergeSort fun a b => !decide (b.1 < a.1)).Pairwise fun a b => ¬b.1 < a.1 := by
  have ordered : (results.mergeSort fun a b => !decide (b.1 < a.1)).Pairwise
      fun a b => (!decide (b.1 < a.1)) = true := by
    apply List.pairwise_mergeSort
    · intro a b c
      simp only [Bool.not_eq_true', decide_eq_false_iff_not, not_lt]
      exact le_trans
    · intro a b
      simp only [Bool.or_eq_true, Bool.not_eq_true', decide_eq_false_iff_not, not_lt]
      exact le_total a.1 b.1
  simpa only [Bool.not_eq_true', decide_eq_false_iff_not] using ordered

/-- Results are taken in the order of their paths, whatever order they come in. -/
theorem inOrder_of_perm (perm : results.Perm results')
    (single : ∀ a ∈ results, ∀ b ∈ results, a.1 = b.1 → a = b) : inOrder results' = inOrder results := by
  have moved := (List.mergeSort_perm results' fun a b => !decide (b.1 < a.1)).trans
    (perm.symm.trans (List.mergeSort_perm results fun a b => !decide (b.1 < a.1)).symm)
  -- two arrangements in the order of the paths can differ only where two results have one path
  have same := moved.eq_of_pairwise (fun a b first second before after => ?_)
    (pairwise_sorted results') (pairwise_sorted results)
  · rw [inOrder, inOrder, same]
  · rw [List.mem_mergeSort, ← perm.mem_iff] at first
    rw [List.mem_mergeSort] at second
    exact single a first b second (le_antisymm (not_lt.mp before) (not_lt.mp after))

/-- Keys may be given in any order. -/
theorem inOrder_map_of_perm {names names' : List String} (perm : names.Perm names')
    (load : String → Except ε Loaded) :
    inOrder (names'.map fun name => (name, load name)) = inOrder (names.map fun name => (name, load name)) := by
  apply inOrder_of_perm (perm.map _)
  intro a first b second same
  obtain ⟨name, _, rfl⟩ := List.mem_map.mp first
  obtain ⟨name', _, rfl⟩ := List.mem_map.mp second
  obtain rfl : name = name' := same
  rfl

/-- A result with its error seen through `g`. -/
def seen (g : ε → β) (result : String × Except ε Loaded) : String × Except β Loaded :=
  (result.1, result.2.mapError g)

theorem concat_mapError (g : ε → β) (results : List (Except ε Loaded)) :
    (concat results).mapError g = concat (results.map (Except.mapError g)) := by
  induction results with
  | nil => rfl
  | cons result results ih =>
    cases result with
    | error e => rfl
    | ok l =>
      simp only [concat, List.map_cons, Except.mapError, ← ih]
      cases concat results <;> rfl

/-- What is seen of the outcome depends on what is seen of the results. -/
theorem inOrder_mapError (g : ε → β) (results : List (String × Except ε Loaded)) :
    (inOrder results).mapError g = inOrder (results.map (seen g)) := by
  have sorted : (results.mergeSort fun a b => !decide (b.1 < a.1)).map (seen g) =
      (results.map (seen g)).mergeSort fun a b => !decide (b.1 < a.1) :=
    List.map_mergeSort fun a _ b _ => rfl
  rw [inOrder, inOrder, concat_mapError, ← sorted, List.map_map, List.map_map]
  rfl

theorem inOrder_of_sorted (sorted : (results.map (·.1)).Pairwise fun a b => ¬b < a) :
    inOrder results = concat (results.map (·.2)) := by
  rw [inOrder, List.mergeSort_of_pairwise]
  simpa [List.pairwise_map] using sorted

end InOrder

/-! ### Files and folders -/

variable {β : Type} {g : LoadError → β} {unzip : Unzip} {f f' : Faults} {a a' : Archive} {path : String}
  {bytes bytes' : ByteArray}

/-- A view of errors under which all failing entries of one listing are the same. -/
structure Blurs (g : LoadError → β) (unzip : Unzip) (f : Faults) (t : FileTree) : Prop where
  folders : ∀ path, ∀ cause ∈ f.entries path, ∀ cause' ∈ f.entries path,
    g (.unlisted path cause) = g (.unlisted path cause')
  archives : ∀ bytes, t.Holds bytes → ∀ a, unzip bytes = .ok a → ∀ path cause cause',
    .error cause ∈ a.listing → .error cause' ∈ a.listing →
      g (.unreadable path cause) = g (.unreadable path cause')

theorem blurs_message (unzip : Unzip) (f : Faults) (t : FileTree) : Blurs LoadError.message unzip f t :=
  ⟨fun _ _ _ _ _ => rfl, fun _ _ _ _ _ _ _ _ _ => rfl⟩

theorem blurs_id {d : Disk} (alike : d.FailsAlike unzip) : Blurs id unzip d.faults d.root where
  folders path cause member cause' member' := by rw [alike.folders path cause member cause' member']
  archives bytes held a opened path cause cause' member member' := by
    rw [alike.archives bytes held a opened cause cause' member member']

theorem Blurs.part {t t' : FileTree} (blurs : Blurs g unzip f t)
    (part : ∀ bytes, t'.Holds bytes → t.Holds bytes) : Blurs g unzip f t' :=
  ⟨blurs.folders, fun bytes held => blurs.archives bytes (part bytes held)⟩

theorem ofArchive_of_relisted (lawful : a.Lawful) (lawful' : a'.Lawful) (relisted : a.Relisted a')
    (blurs : ∀ cause cause', .error cause ∈ a.listing → .error cause' ∈ a.listing →
      g (.unreadable path cause) = g (.unreadable path cause')) :
    (ofArchive path a').mapError g = (ofArchive path a).mapError g := by
  unfold ofArchive
  rcases a.documents_cases with ⟨cause, member, failed⟩ | ⟨none, listed⟩ <;>
    rcases a'.documents_cases with ⟨cause', member', failed'⟩ | ⟨none', listed'⟩
  · rw [failed, failed']
    exact congrArg Except.error (blurs cause' cause (relisted.perm.mem_iff.mpr member') member)
  · exact absurd (relisted.perm.mem_iff.mp member) (none' cause)
  · exact absurd (relisted.perm.mem_iff.mpr member') (none cause')
  · rw [listed, listed']
    dsimp only
    rw [inOrder_map_of_perm ((relisted.opened.filter _).map _)]
    congr 2
    -- each name is read from the one archive as it is from the other
    apply List.map_congr_left
    intro name member
    obtain ⟨e, kept, rfl⟩ := List.mem_map.mp member
    have same := relisted.read lawful lawful' (List.mem_of_mem_filter kept)
    simp only [ofEntry, same]

theorem ofFile_of_archive (archive : Path.kind path = .archive) (unpacked : unzip bytes = .ok a) (strict : Bool) :
    ofFile unzip f strict path (some bytes) =
      match f.opening path, f.reading path with
      | some cause, _ => .error (.unopenable path cause)
      | none, some cause => .error (.unreadable path cause)
      | none, none => ofArchive path a := by
  simp only [ofFile, archive, Faults.openFile, Faults.readFile]
  cases f.opening path with
  | some cause => rfl
  | none =>
    cases f.reading path with
    | some cause => rfl
    | none => simp only [Except.bind, unpacked]

theorem ofFile_of_faults (relisted : f.Relisted f') (strict : Bool) (bytes : Option ByteArray) :
    ofFile unzip f' strict path bytes = ofFile unzip f strict path bytes := by
  have opens : f'.openFile = f.openFile := by
    funext path bytes
    unfold Faults.openFile
    rw [relisted.opening]
  have reads : f'.readFile = f.readFile := by
    funext path bytes
    unfold Faults.readFile
    rw [relisted.reading]
  rw [ofFile, ofFile, opens, reads]

theorem ofFile_of_relisted (lawful : unzip.Lawful) (faults : f.Relisted f') {name : String}
    (relisted : (FileTree.file bytes).Relisted unzip name (.file bytes'))
    (named : Path.kind name = .archive → Path.kind path = .archive) (blurs : Blurs g unzip f (.file bytes))
    (strict : Bool) : (ofFile unzip f' strict path (some bytes')).mapError g =
      (ofFile unzip f strict path (some bytes)).mapError g := by
  rw [ofFile_of_faults faults]
  cases relisted with
  | file => rfl
  | archive isArchive unpacked unpacked' same =>
    rw [ofFile_of_archive (named isArchive) unpacked, ofFile_of_archive (named isArchive) unpacked']
    cases f.opening path with
    | some cause => rfl
    | none =>
      cases f.reading path with
      | some cause => rfl
      | none =>
        exact ofArchive_of_relisted (lawful _ _ unpacked) (lawful _ _ unpacked') same
          (blurs.archives _ .file _ unpacked path)

theorem ofListing_of_relisted {results results' : List (String × Except LoadError Loaded)}
    (faults : f.Relisted f') (blurs : Blurs g unzip f t)
    (same : (inOrder results').mapError g = (inOrder results).mapError g) :
    (ofListing f' path results').mapError g = (ofListing f path results).mapError g := by
  have perm := faults.entries path
  unfold ofListing
  rw [faults.listing]
  cases f.listing path with
  | some cause => rfl
  | none =>
    cases listed : f.entries path with
    | nil =>
      rw [listed, List.nil_perm] at perm
      rw [perm]
      exact same
    | cons cause causes =>
      cases listed' : f'.entries path with
      | nil =>
        rw [listed, listed'] at perm
        cases perm.eq_nil
      | cons cause' causes' =>
        -- the first failures may differ, but both are among those of the one listing
        have member : cause' ∈ f.entries path := perm.mem_iff.mpr (listed' ▸ List.mem_cons_self)
        exact congrArg Except.error (blurs.folders path cause' member cause (listed ▸ List.mem_cons_self))

theorem ofEntries_eq_map (unzip : Unzip) (f : Faults) (path : String) (entries : List (String × FileTree)) :
    ofEntries unzip f path entries =
      entries.map fun e => (Path.join path e.1, ofTree unzip f (Path.join path e.1) e.2) := by
  induction entries with
  | nil => rfl
  | cons e entries ih => rw [ofEntries, ih, List.map_cons]

/-- Different names under a folder make different paths. -/
theorem join_inj {folder name name' : String} (same : Path.join folder name = Path.join folder name') :
    name = name' := by
  unfold Path.join at same
  split at same
  · exact (String.append_right_inj folder).mp same
  · exact (String.append_right_inj (folder ++ "/")).mp same

theorem ofEntries_of_perm {entries entries' : List (String × FileTree)} (distinct : (entries.map (·.1)).Nodup)
    (perm : entries.Perm entries') :
    inOrder (ofEntries unzip f path entries') = inOrder (ofEntries unzip f path entries) := by
  rw [ofEntries_eq_map, ofEntries_eq_map]
  apply inOrder_of_perm (perm.map _)
  intro a first b second same
  obtain ⟨e, listed, rfl⟩ := List.mem_map.mp first
  obtain ⟨e', listed', rfl⟩ := List.mem_map.mp second
  rw [List.inj_on_of_nodup_map distinct listed listed' (join_inj same)]

mutual

theorem ofTree_of_relisted (lawful : unzip.Lawful) (faults : f.Relisted f') (path : String) (t : FileTree)
    {name : String} {t' : FileTree} (relisted : t.Relisted unzip name t')
    (named : (∃ bytes, t = .file bytes) → Path.kind name = .archive → Path.kind path = .archive)
    (blurs : Blurs g unzip f t) : (ofTree unzip f' path t').mapError g = (ofTree unzip f path t).mapError g := by
  match t with
  | .file bytes =>
    obtain ⟨bytes', rfl⟩ := relisted.of_file
    exact ofFile_of_relisted lawful faults relisted (named ⟨bytes, rfl⟩) blurs false
  | .folder entries =>
    cases relisted with
    | folder distinct each perm =>
      rw [← each.names] at distinct
      rw [ofTree, ofTree]
      apply ofListing_of_relisted faults blurs
      rw [ofEntries_of_perm distinct perm, inOrder_mapError, inOrder_mapError,
        ofEntries_of_each lawful faults path entries each
          fun entry member => blurs.part fun bytes held => .folder member held]

theorem ofEntries_of_each (lawful : unzip.Lawful) (faults : f.Relisted f') (path : String)
    (entries : List (String × FileTree)) {between : List (String × FileTree)}
    (each : FileTree.EachRelisted unzip entries between)
    (blurs : ∀ entry ∈ entries, Blurs g unzip f entry.2) :
    (ofEntries unzip f' path between).map (seen g) = (ofEntries unzip f path entries).map (seen g) := by
  match entries with
  | [] =>
    cases each
    rfl
  | (name, t) :: rest =>
    cases each with
    | cons first more =>
      have here := ofTree_of_relisted lawful faults (Path.join path name) t first (fun _ => Path.kind_join)
        (blurs (name, t) List.mem_cons_self)
      have later := ofEntries_of_each lawful faults path rest more
        fun entry member => blurs entry (List.mem_cons_of_mem _ member)
      rw [ofEntries, ofEntries, List.map_cons, List.map_cons, later]
      simp only [seen, here]

end

theorem ofPath_of_relisted (lawful : unzip.Lawful) {d d' : Disk} (relisted : d.Relisted unzip d')
    (blurs : Blurs g unzip d.faults d.root) (path : String) :
    (ofPath unzip d' path).mapError g = (ofPath unzip d path).mapError g := by
  unfold ofPath
  rcases relisted.find? path with ⟨nowhere, nowhere'⟩ | ⟨name, t, t', found, found', inner, named⟩
  · rw [nowhere, nowhere']
    exact congrArg _ (ofFile_of_faults relisted.faults true none)
  · have part := blurs.part fun bytes => Disk.holds_of_find? found
    rw [found, found']
    cases t with
    | file bytes =>
      obtain ⟨bytes', rfl⟩ := inner.of_file
      exact ofFile_of_relisted lawful relisted.faults inner (named ⟨bytes, rfl⟩) part true
    | folder entries =>
      obtain ⟨entries', rfl⟩ := inner.of_folder
      exact ofTree_of_relisted lawful relisted.faults path _ inner named part

end Loaded

namespace Corpus

theorem load_of_blurs {g : LoadError → β} {unzip : Unzip} (lawful : unzip.Lawful) {d d' : Disk}
    (relisted : d.Relisted unzip d') (blurs : Loaded.Blurs g unzip d.faults d.root) (input : String)
    {classpath classpath' : List String} (perm : classpath.Perm classpath') :
    (load unzip d' input classpath').mapError g = (load unzip d input classpath).mapError g := by
  have main := Loaded.ofPath_of_relisted lawful relisted blurs
  have library : (Loaded.inOrder (classpath'.map fun path => (path, Loaded.ofPath unzip d' path))).mapError g =
      (Loaded.inOrder (classpath.map fun path => (path, Loaded.ofPath unzip d path))).mapError g := by
    rw [Loaded.inOrder_map_of_perm perm, Loaded.inOrder_mapError, Loaded.inOrder_mapError, List.map_map,
      List.map_map]
    simp only [Function.comp_def, Loaded.seen, main]
  exact Loaded.bind_mapError (main input) fun _ => Loaded.bind_mapError library fun _ => rfl

-- where entries fail for different reasons the cause is that of the first one
example (x y : Cause) : Loaded.ofTree Zip.openArchive { entries := fun _ => [x, y] } "in" (.folder []) =
    .error (.unlisted "in" x) := rfl

end Corpus

/-! ### A folder with an archive in it -/

/-- A document with one class. -/
def documentOf (name : String) : ByteArray := ("[[\"p\",\"p." ++ name ++ "\"]]").toUTF8

/-- Two documents in an archive, with a folder listed between them. -/
def shelfEntries : List Zip.Stored :=
  [⟨"y/Y.json", documentOf "Y"⟩, ⟨"y/", .empty⟩, ⟨"z/Z.json", documentOf "Z"⟩]

def shelf : Disk where
  root := .folder [("in", .folder [("a.json", .file (documentOf "A")), ("b.zip", .file (Zip.pack shelfEntries))])]

def shelfTurned : Disk where
  root := .folder [("in", .folder [("b.zip", .file (Zip.pack shelfEntries.reverse)),
    ("a.json", .file (documentOf "A"))])]

theorem shelf_packable : Zip.Packable shelfEntries ∧ Zip.Packable shelfEntries.reverse := by decide +kernel

/-- Paths on the shelf, what kind of file they name and where they lead. -/
theorem shelf_paths : Path.kind "b.zip" = .archive ∧ Path.kind "in/a.json" = .document ∧
    Path.kind "in/b.zip" = .archive ∧ Path.join "in" "a.json" = "in/a.json" ∧
    Path.join "in" "b.zip" = "in/b.zip" ∧ shelf.walk [] (Path.components "in") = some ["in"] ∧
    shelf.walk [] (Path.components "in/a.json") = some ["in", "a.json"] ∧
    shelf.walk [] (Path.components "in/b.zip") = some ["in", "b.zip"] := by decide +kernel

/-- A document is no archive; each holds its class, and the archive holds two of them. -/
theorem shelf_files : (Zip.openArchive (documentOf "A")).toOption.isNone ∧
    (∀ name ∈ ["A", "Y", "Z"], (Class.ofBytes? (documentOf name)).map (·.map (·.name)) = some ["p." ++ name]) ∧
    (((shelfEntries.map Zip.Stored.opened).filter fun e => !e.isFolder && Archive.isDocument e.name).map (·.name)) =
      ["y/Y.json", "z/Z.json"] := by decide +kernel

theorem shelf_relisted : shelf.Relisted Zip.openArchive shelfTurned := by
  obtain ⟨a, opened, listing⟩ := Zip.openArchive_pack shelf_packable.1
  obtain ⟨a', opened', listing'⟩ := Zip.openArchive_pack shelf_packable.2
  have archive : a.Relisted a' := by
    constructor
    case distinct =>
      rw [Archive.opened_of_listing listing, List.map_map]
      exact shelf_packable.1.distinct
    case perm =>
      rw [listing, listing']
      exact (List.reverse_perm shelfEntries).symm.map _
  have zip : FileTree.Relisted Zip.openArchive "b.zip" (.file (Zip.pack shelfEntries))
      (.file (Zip.pack shelfEntries.reverse)) := .archive shelf_paths.1 opened opened' archive
  refine ⟨.folder (by decide) (.cons ?_ .nil) (.refl _), rfl, ⟨rfl, fun _ => .refl _, rfl, rfl⟩⟩
  exact .folder (by decide) (.cons .file (.cons zip .nil)) (.swap _ _ _)

theorem shelf_failsAlike : shelf.FailsAlike Zip.openArchive where
  folders _ _ member := nomatch member
  archives bytes held a opened cause cause' member _ := by
    obtain ⟨a', opened', listing⟩ := Zip.openArchive_pack shelf_packable.1
    have plain := shelf_files.1
    cases held with
    | folder inRoot held =>
      obtain ⟨rfl, rfl⟩ := Prod.mk.inj (List.mem_singleton.mp inRoot)
      cases held with
      | folder inFolder held =>
        rcases List.mem_cons.mp inFolder with first | second
        · obtain ⟨rfl, rfl⟩ := Prod.mk.inj first
          cases held
          rw [opened] at plain
          cases plain
        · obtain ⟨rfl, rfl⟩ := Prod.mk.inj (List.mem_singleton.mp second)
          cases held
          obtain rfl := Except.ok.inj (opened.symm.trans opened')
          simp [listing] at member

/-- Loading gives classes of these names, from so many documents. -/
def Loaded.Gives (r : Except LoadError Loaded) (names : List String) (documents : Nat) : Prop :=
  ∃ l, r = .ok l ∧ l.classes.map (·.name) = names ∧ l.documents = documents

theorem gives_document (path : String) {name : String} (shelved : name ∈ ["A", "Y", "Z"]) :
    Loaded.Gives (Loaded.ofDocument path (documentOf name)) ["p." ++ name] 1 := by
  have read := shelf_files.2.1 name shelved
  unfold Loaded.ofDocument
  cases classes : Class.ofBytes? (documentOf name) with
  | none =>
    rw [classes] at read
    cases read
  | some found =>
    rw [classes] at read
    exact ⟨⟨found, 1⟩, rfl, Option.some.inj read, rfl⟩

theorem gives_pair {r r' : Except LoadError Loaded} {path path' : String} (before : ¬path' < path)
    (first : Loaded.Gives r names m) (second : Loaded.Gives r' names' n) :
    Loaded.Gives (Loaded.inOrder [(path, r), (path', r')]) (names ++ names') (m + n) := by
  obtain ⟨l, rfl, rfl, rfl⟩ := first
  obtain ⟨l', rfl, rfl, rfl⟩ := second
  rw [Loaded.inOrder_of_sorted (by simpa using before)]
  exact ⟨l.append (l'.append {}), rfl, by simp [Loaded.append], rfl⟩

theorem shelf_gives_document (strict : Bool) (path : String) (document : Path.kind path = .document) :
    Loaded.Gives (Loaded.ofFile Zip.openArchive {} strict path (some (documentOf "A"))) ["p.A"] 1 := by
  simp only [Loaded.ofFile, document]
  exact gives_document path (by decide)

theorem shelf_gives_archive (strict : Bool) (path : String) (archive : Path.kind path = .archive) :
    Loaded.Gives (Loaded.ofFile Zip.openArchive {} strict path (some (Zip.pack shelfEntries)))
      ["p.Y", "p.Z"] 2 := by
  obtain ⟨a, opened, listing⟩ := Zip.openArchive_pack shelf_packable.1
  have entries := Archive.opened_of_listing listing
  have documents : a.documents = .ok ["y/Y.json", "z/Z.json"] := by
    rcases a.documents_cases with ⟨cause, member, _⟩ | ⟨_, done⟩
    · simp [listing] at member
    · rw [done, entries, shelf_files.2.2]
  have reads (s : Zip.Stored) (member : s ∈ shelfEntries) : a.read s.name = .ok s.content := by
    have distinct : (a.opened.map (·.name)).Nodup := by
      rw [entries, List.map_map]
      exact shelf_packable.1.distinct
    have found := Zip.openArchive_lawful _ a opened distinct s.opened
      (by rw [entries]; exact List.mem_map_of_mem member)
    rw [Archive.read]
    exact congrArg (· >>= _) found
  have y := reads ⟨"y/Y.json", documentOf "Y"⟩ (by simp [shelfEntries])
  have z := reads ⟨"z/Z.json", documentOf "Z"⟩ (by simp [shelfEntries])
  rw [Loaded.ofFile_of_archive archive opened]
  simp only [Loaded.ofArchive, documents, List.map_cons, List.map_nil, Loaded.ofEntry, y, z]
  exact gives_pair (by decide) (gives_document _ (by decide)) (gives_document _ (by decide))

theorem shelf_find? {path : String} {place : List String} (named : path ≠ "")
    (walked : shelf.walk [] (Path.components path) = some place) :
    shelf.find? path = shelf.root.follow? place := by
  have start : shelf.startOf path = [] := ite_self _
  rw [Disk.find?, if_neg named, start, walked, Option.bind_some]

/-- The documents of the folder and of the archive in it, each in the order of its path. -/
theorem shelf_loads : ∃ corpus, Corpus.load Zip.openArchive shelf "in" ["in/a.json", "in/b.zip"] = .ok corpus ∧
    corpus.classes.map (·.name) = ["p.A", "p.Y", "p.Z"] ∧ corpus.library.map (·.name) = ["p.A", "p.Y", "p.Z"] ∧
    corpus.documents = 6 := by
  obtain ⟨_, isDocument, isArchive, joined, joined', toFolder, toDocument, toArchive⟩ := shelf_paths
  have folder : shelf.find? "in" = some (.folder [("a.json", .file (documentOf "A")),
      ("b.zip", .file (Zip.pack shelfEntries))]) := shelf_find? (by decide) toFolder
  have document : shelf.find? "in/a.json" = some (.file (documentOf "A")) := shelf_find? (by decide) toDocument
  have archive : shelf.find? "in/b.zip" = some (.file (Zip.pack shelfEntries)) := shelf_find? (by decide) toArchive
  have main : Loaded.Gives (Loaded.ofPath Zip.openArchive shelf "in") (["p.A"] ++ ["p.Y", "p.Z"]) (1 + 2) := by
    have listed : Loaded.ofPath Zip.openArchive shelf "in" = Loaded.inOrder
        [("in/a.json", Loaded.ofFile Zip.openArchive {} false "in/a.json" (some (documentOf "A"))),
          ("in/b.zip", Loaded.ofFile Zip.openArchive {} false "in/b.zip" (some (Zip.pack shelfEntries)))] := by
      have faults : shelf.faults = {} := rfl
      simp only [Loaded.ofPath, folder, Loaded.ofTree, Loaded.ofEntries, Loaded.ofListing, joined, joined', faults]
    rw [listed]
    exact gives_pair (by decide) (shelf_gives_document false _ isDocument) (shelf_gives_archive false _ isArchive)
  have library : Loaded.Gives (Loaded.inOrder (["in/a.json", "in/b.zip"].map fun path =>
      (path, Loaded.ofPath Zip.openArchive shelf path))) (["p.A"] ++ ["p.Y", "p.Z"]) (1 + 2) := by
    simp only [List.map_cons, List.map_nil, Loaded.ofPath, document, archive]
    exact gives_pair (by decide) (shelf_gives_document true _ isDocument) (shelf_gives_archive true _ isArchive)
  obtain ⟨l, loaded, names, count⟩ := main
  obtain ⟨l', loaded', names', count'⟩ := library
  refine ⟨⟨l.classes, l'.classes, l.documents + l'.documents⟩, ?_, names, names', by rw [count, count']⟩
  rw [Corpus.load, loaded, loaded']
  rfl

end ProgramDependence
