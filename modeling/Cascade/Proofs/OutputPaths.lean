import Mathlib.Data.List.DropRight
import Cascade.Source
import Cascade.Proofs.Outcomes

/-!
# Places of compiled stylesheets

Every source that is collected knows its path below the directory it was found in,
and its stylesheet goes to the same path below the output directory, with another
extension.  Below a directory, a path that is made of names alone is written as it
stands: `Path.exists_join_eq_append`.  So nothing is lost on the way from the path
of a source to the path of its stylesheet but the extension of the source.

**Results.** `Source.outputPath_eq_iff`: two collected sources share the path of
their stylesheet exactly when their own paths agree up to the extension; two files
found below one directory then differ in the extension alone.  Files of different
directories do share it: `Source.outputPath_sameNames`.
-/

namespace Cascade

/-! ## Names -/

namespace Path

/-- The path leads down by names alone. -/
def IsLocal (path : List Char) : Prop :=
  ∀ e ∈ elements path, IsName e

theorem push_name {e : List Char} (h : IsName e) (rooted : Bool) (stack : List (List Char)) :
    push rooted stack e = e :: stack := by
  simp [push, h.plain, h.ne_up]

/-- Names at the end of a path are kept. -/
theorem normalize_append (rooted : Bool) (es : List (List Char)) {names : List (List Char)}
    (h : ∀ e ∈ names, IsName e) :
    normalize rooted (es ++ names) = normalize rooted es ++ names := by
  have hrun : ∀ stack, names.foldl (push rooted) stack = names.reverse ++ stack := by
    induction names with
    | nil => exact fun stack => rfl
    | cons e names ih =>
      obtain ⟨he, hnames⟩ := List.forall_mem_cons.mp h
      intro stack
      rw [List.foldl_cons, push_name he, ih hnames, List.reverse_cons, List.append_assoc,
        List.singleton_append]
  rw [normalize, normalize, List.foldl_append, hrun, List.reverse_append, List.reverse_reverse]

/-- What stands in front of the names below a directory that is given by its elements. -/
def lead (rooted : Bool) (es : List (List Char)) : List Char :=
  (if rooted then ['/'] else []) ++ es.flatMap fun e => e ++ ['/']

theorem render_append (rooted : Bool) (es : List (List Char)) {names : List (List Char)}
    (h : names ≠ []) :
    render rooted (es ++ names) = lead rooted es ++ Text.joinWith '/' names := by
  have hne : es ++ names ≠ [] := List.append_ne_nil_of_right_ne_nil es h
  cases rooted with
  | true => rw [render, if_pos rfl, Text.joinWith_append '/' es h, lead, if_pos rfl]; rfl
  | false =>
    rw [render, if_neg Bool.false_ne_true, if_neg (by simpa using hne),
      Text.joinWith_append '/' es h, lead, if_neg Bool.false_ne_true, List.nil_append]

theorem IsLocal.ne_nil {path : List Char} (h : IsLocal path) : path ≠ [] := by
  rintro rfl
  exact absurd (h [] List.mem_cons_self).plain (by decide)

theorem IsLocal.isRooted {path : List Char} (h : IsLocal path) : isRooted path = false := by
  cases path with
  | nil => exact absurd rfl h.ne_nil
  | cons c cs =>
    by_cases hc : c = '/'
    · subst hc
      have hempty := h [] (by rw [elements, Text.splitAt_sep]; exact List.mem_cons_self)
      exact absurd hempty.plain (by decide)
    · simp [Path.isRooted, hc]

/-- The shortest form of a path whose end leads down by names. -/
theorem render_normalize_append (rooted : Bool) (es : List (List Char)) {path : List Char}
    (h : IsLocal path) :
    render rooted (normalize rooted (es ++ elements path)) =
      lead rooted (normalize rooted es) ++ path := by
  have hne : elements path ≠ [] := Text.splitAt_ne_nil '/' path
  have hpath : Text.joinWith '/' (elements path) = path := Text.joinWith_splitAt '/' path
  rw [normalize_append rooted es h, render_append rooted _ hne, hpath]

/-- Below a directory, a path that leads down by names is written as it stands. -/
theorem exists_join_eq_append (dir : List Char) :
    ∃ front, ∀ path, IsLocal path → join [dir, path] = front ++ path := by
  by_cases hdir : dir = []
  · refine ⟨[], fun path h => ?_⟩
    have hpath := render_normalize_append false [] h
    subst hdir
    simpa [join, clean, h.ne_nil, h.isRooted, Text.joinWith, lead, normalize] using hpath
  · refine ⟨lead (isRooted dir) (normalize (isRooted dir) (elements dir)), fun path h => ?_⟩
    have hjoin : join [dir, path] = clean (dir ++ '/' :: path) := by
      simp [join, hdir, h.ne_nil, Text.joinWith]
    have hrooted : isRooted (dir ++ '/' :: path) = isRooted dir := by
      cases dir with
      | nil => exact absurd rfl hdir
      | cons c cs => rfl
    have helements : elements (dir ++ '/' :: path) = elements dir ++ elements path :=
      Text.splitAt_append_sep '/' dir path
    rw [hjoin, clean, hrooted, helements, render_normalize_append _ _ h]

/-! ## Extensions -/

/-- What stands from the last occurrence of a character on ends the text. -/
theorem rtakeWhile_cons_suffix {c : Char} {s : List Char} (h : c ∈ s) :
    c :: s.rtakeWhile (· != c) <:+ s := by
  induction s using List.reverseRecOn with
  | nil => exact absurd h List.not_mem_nil
  | append_singleton s d ih =>
    by_cases hd : d = c
    · subst hd
      rw [List.rtakeWhile_concat_neg _ _ _ (by simp)]
      exact List.suffix_append s [d]
    · have hs : c ∈ s := by simpa [Ne.symm hd] using h
      rw [List.rtakeWhile_concat_pos _ _ _ (by simpa using hd)]
      exact List.suffix_append_self_iff.mpr (ih hs)

/-- The extension ends the last element. -/
theorem exists_extension_suffix (path : List Char) :
    ∃ last, '/' ∉ last ∧ last <:+ path ∧ extension path <:+ last := by
  refine ⟨path.rtakeWhile (· != '/'), fun h => ?_, List.rtakeWhile_suffix _ _, ?_⟩
  · simpa using List.mem_rtakeWhile_imp h
  · rw [extension]
    split
    · rename_i hdot
      exact rtakeWhile_cons_suffix (List.contains_iff_mem.mp hdot)
    · exact List.nil_suffix

/-- An extension stays within one element. -/
theorem slash_not_mem_extension (path : List Char) : '/' ∉ extension path := by
  obtain ⟨last, hslash, -, hextension⟩ := exists_extension_suffix path
  exact fun h => hslash (hextension.subset h)

/-- A path is its part without the extension and the extension. -/
theorem withoutExtension_append_extension (path : List Char) :
    withoutExtension path ++ extension path = path := by
  obtain ⟨last, -, hlast, hextension⟩ := exists_extension_suffix path
  obtain ⟨front, hfront⟩ := hextension.trans hlast
  have hlength : path.length - (extension path).length = front.length := by
    have := congrArg List.length hfront
    rw [List.length_append] at this
    omega
  have htake : path.take front.length = front := by
    conv_lhs => rw [← hfront]
    exact List.take_left
  rw [withoutExtension, hlength, htake, hfront]

/-- The extension of a compiled stylesheet. -/
def compiledExtension : List Char := ['.', 'c', 's', 's']

/-- Any text in front of the extension of a stylesheet gives a name. -/
theorem isName_stylesheet {stem : List Char} (h : '/' ∉ stem) :
    IsName (stem ++ compiledExtension) where
  plain := by
    have hlong : 1 < (stem ++ compiledExtension).length := by simp [compiledExtension]
    rw [isPlain, Bool.not_eq_true', Bool.or_eq_false_iff, beq_eq_false_iff_ne, beq_eq_false_iff_ne]
    exact ⟨fun he => by simp [he] at hlong, fun he => by simp [he] at hlong⟩
  ne_up := fun he => by
    have hlength := congrArg List.length he
    simp [compiledExtension, up] at hlength
  slash_free := fun hmem => (List.mem_append.mp hmem).elim h (by decide)

/-- The directories that a path leads through have names. -/
def IsBelow (path : List Char) : Prop :=
  ∀ e ∈ (elements path).dropLast, IsName e

/-- The stylesheet of a source is reached by names through the directories of the source. -/
theorem IsBelow.isLocal_stylesheet {path : List Char} (h : IsBelow path) :
    IsLocal (withoutExtension path ++ compiledExtension) := by
  obtain ⟨front, last, hlast, hmore⟩ := Text.exists_splitAt_last '/' (withoutExtension path)
  have hpath := hmore _ (slash_not_mem_extension path)
  rw [withoutExtension_append_extension] at hpath
  have hslash : '/' ∉ last :=
    Text.not_mem_of_mem_splitAt (s := withoutExtension path) (by rw [hlast]; simp)
  intro e he
  rw [elements, hmore _ (by decide)] at he
  rcases List.mem_append.mp he with he | he
  · exact h e (by rw [elements, hpath, List.dropLast_concat]; exact he)
  · cases List.mem_singleton.mp he
    exact isName_stylesheet hslash

/-- A path without slashes leads through no directories. -/
theorem isBelow_of_slash_free {path : List Char} (h : '/' ∉ path) : IsBelow path := by
  intro e he
  rw [elements, Text.splitAt_of_not_mem h] at he
  exact absurd he List.not_mem_nil

/-- The last element of a path has no slash, unless the path has nothing else. -/
theorem slash_not_mem_base {path : List Char} (h : ¬∀ c ∈ path, c = '/') : '/' ∉ base path := by
  obtain ⟨c, hc, hslash⟩ : ∃ c ∈ path, c ≠ '/' := by simpa using h
  have hpath : path.isEmpty = false := by
    cases path with
    | nil => exact absurd hc List.not_mem_nil
    | cons d ds => rfl
  rw [base, hpath, if_neg Bool.false_ne_true]
  split
  · rename_i hnil
    have hall := List.rdropWhile_eq_nil_iff.mp hnil
    exact absurd (by simpa using hall c hc) hslash
  · exact fun hmem => by simpa using List.mem_rtakeWhile_imp (p := (· != '/')) hmem

/-- The elements of names with slashes between them are the names. -/
theorem elements_intercalate {names : List String} (hne : names ≠ [])
    (h : ∀ name ∈ names, IsName name.toList) :
    elements ("/".intercalate names).toList = names.map String.toList := by
  rw [String.toList_intercalate, elements]
  have hjoin : "/".toList.intercalate (names.map String.toList) =
      Text.joinWith '/' (names.map String.toList) :=
    (Text.joinWith_eq_intercalate '/' _).symm
  rw [hjoin]
  refine Text.splitAt_joinWith (by simpa using hne) fun part hpart => ?_
  obtain ⟨name, hname, rfl⟩ := List.mem_map.mp hpart
  exact (h name hname).slash_free

end Path

/-! ## Walks -/

namespace Tree

theorem below?_ne_nil {place other names : Place} (h : below? place other = some names) :
    names ≠ [] := by
  induction place generalizing other with
  | nil =>
    cases other with
    | nil => cases h
    | cons name rest => cases h; exact List.cons_ne_nil name rest
  | cons a as ih =>
    cases other with
    | nil => cases h
    | cons b bs =>
      rw [below?] at h
      split at h
      · exact ih h
      · cases h

/-- A walk leads down by names. -/
theorem isName_of_mem_filesBelow {t : Tree} {place : Place} {found : Place × String}
    (h : found ∈ t.filesBelow place) :
    found.1 ≠ [] ∧ ∀ name ∈ found.1, Path.IsName name.toList := by
  rw [filesBelow, List.mem_mergeSort, List.mem_filterMap] at h
  obtain ⟨e, -, hfound⟩ := h
  split at hfound
  · rename_i hbelow
    rw [Option.ite_none_right_eq_some] at hfound
    obtain ⟨hnames, hfound⟩ := hfound
    cases hfound
    exact ⟨below?_ne_nil hbelow, hnames⟩
  · cases hfound

/-- Slashes alone name the root. -/
theorem locate_slashes (t : Tree) {path : String} (hne : path.toList ≠ [])
    (h : ∀ c ∈ path.toList, c = '/') : t.locate path = .ok (["/"], .directory) := by
  have hroot : t.find? ["/"] = some .directory := by simp [find?, isFixed]
  have hstep : t.step ["/"] [] = .ok ["/"] := by
    rw [step, hroot]
    rfl
  have hrun (cs : List Char) (hcs : ∀ c ∈ cs, c = '/') :
      (Path.elements cs).foldlM t.step ["/"] = .ok ["/"] := by
    induction cs with
    | nil => simp [Path.elements, Text.splitAt, hstep]
    | cons c cs ih =>
      obtain ⟨rfl, hrest⟩ := List.forall_mem_cons.mp hcs
      rw [Path.elements, Text.splitAt_sep, List.foldlM_cons, hstep]
      exact ih hrest
  have hfollow : t.follow path = .ok ["/"] := by
    obtain ⟨c, cs, hpath⟩ := List.exists_cons_of_ne_nil hne
    rw [hpath] at h
    obtain ⟨rfl, hcs⟩ := List.forall_mem_cons.mp h
    have hnull : '\x00' ∉ cs := fun hmem => absurd (hcs _ hmem) (by decide)
    simp [follow, hpath, hnull, Path.isRooted, hrun cs hcs]
  simp [locate, hfollow, hroot, bind, Except.bind, pure, Except.pure]

/-- What names a file ends with a name. -/
theorem slash_not_mem_base_of_file {t : Tree} {path content : String} {place : Place}
    (h : t.stat path = .ok (place, .file content)) : '/' ∉ Path.base path.toList := by
  have hlocate : t.locate path = .ok (place, .file content) := by
    rw [stat] at h
    cases hfound : t.locate path with
    | error reason => rw [hfound] at h; cases h
    | ok found => rw [hfound] at h; cases h; rfl
  have hne : path.toList ≠ [] := by
    intro hnil
    simp [locate, follow, hnil, bind, Except.bind] at hlocate
  refine Path.slash_not_mem_base fun hslashes => ?_
  rw [locate_slashes t hne hslashes] at hlocate
  cases hlocate

end Tree

/-! ## Sources -/

namespace Source

variable {config : Config} {tree : Tree}

/-- What a path stands for: the file that it names, or files found below it. -/
theorem cases_of_ofPath {path : String} {found : List Source}
    (h : ofPath config tree path = .ok found) :
    (∃ place content, tree.stat path = .ok (place, .file content) ∧
        found = [⟨path, String.ofList (Path.base path.toList)⟩]) ∨
      ∃ place, tree.stat path = .ok (place, .directory) ∧
        ∀ s ∈ found, ∃ file ∈ tree.filesBelow place,
          s = ⟨Tree.walkPath path file.1, "/".intercalate file.1⟩ := by
  rw [ofPath] at h
  split at h
  · cases h
  · rename_i place content hstat
    split at h
    · cases h
      exact .inl ⟨place, content, hstat, rfl⟩
    · cases h
  · rename_i place hstat
    cases h
    refine .inr ⟨place, hstat, fun s hs => ?_⟩
    obtain ⟨⟨names, content⟩, hfile, hsome⟩ := List.mem_filterMap.mp hs
    rw [Option.ite_none_right_eq_some] at hsome
    exact ⟨(names, content), hfile, (Option.some.inj hsome.2).symm⟩

/-- What is collected stands for one of the paths. -/
theorem exists_ofPath_of_mem_collect {paths : List String} {sources : List Source} {s : Source}
    (h : collect config tree paths = .ok sources) (hs : s ∈ sources) :
    ∃ path ∈ paths, ∃ found, ofPath config tree path = .ok found ∧ s ∈ found := by
  obtain ⟨parts, hparts, h⟩ := Outcome.ok_of_bind h
  split at h
  · cases h
  · cases h
    have hperm := Sorting.sort_perm (fun a b : Source => a.path < b.path) parts.flatten.toArray
    have hmem : s ∈ parts.flatten := by
      simpa using hperm.mem_iff.mp (Array.mem_toList_iff.mp hs)
    obtain ⟨found, hfound, hs⟩ := List.mem_flatten.mp hmem
    obtain ⟨path, hpath, hof⟩ := Outcome.exists_of_mem_mapM hparts hfound
    exact ⟨path, hpath, found, hof, hs⟩

/-- A source lies below the directory it was found in. -/
theorem isBelow_relative {path : String} {found : List Source} {s : Source}
    (h : ofPath config tree path = .ok found) (hs : s ∈ found) :
    Path.IsBelow s.relative.toList := by
  obtain ⟨place, content, hstat, rfl⟩ | ⟨_, -, hfound⟩ := cases_of_ofPath h
  · cases List.mem_singleton.mp hs
    refine Path.isBelow_of_slash_free ?_
    rw [String.toList_ofList]
    exact Tree.slash_not_mem_base_of_file hstat
  · obtain ⟨file, hfile, rfl⟩ := hfound s hs
    obtain ⟨hne, hnames⟩ := Tree.isName_of_mem_filesBelow hfile
    intro e he
    rw [Path.elements_intercalate hne hnames] at he
    obtain ⟨name, hname, rfl⟩ := List.mem_map.mp (List.dropLast_subset _ he)
    exact hnames name hname

/-- Two files found below one directory differ in the path from there. -/
theorem path_eq_of_relative_eq {path : String} {found : List Source} {a b : Source}
    (h : ofPath config tree path = .ok found) (ha : a ∈ found) (hb : b ∈ found)
    (heq : a.relative = b.relative) : a.path = b.path := by
  obtain ⟨-, -, -, rfl⟩ | ⟨_, -, hfound⟩ := cases_of_ofPath h
  · cases List.mem_singleton.mp ha
    cases List.mem_singleton.mp hb
    rfl
  · obtain ⟨first, hfirst, rfl⟩ := hfound a ha
    obtain ⟨second, hsecond, rfl⟩ := hfound b hb
    obtain ⟨hne, hnames⟩ := Tree.isName_of_mem_filesBelow hfirst
    obtain ⟨hne', hnames'⟩ := Tree.isName_of_mem_filesBelow hsecond
    have helements := congrArg (fun path : String => Path.elements path.toList) heq
    simp only [Path.elements_intercalate hne hnames,
      Path.elements_intercalate hne' hnames'] at helements
    have hsame : first.1 = second.1 :=
      List.map_injective_iff.mpr (fun _ _ => String.toList_injective) helements
    rw [hsame]

/-- The stylesheets of two sources are told apart by the paths of the sources alone. -/
theorem outputPath_eq_iff_of_isBelow {a b : Source} (ha : Path.IsBelow a.relative.toList)
    (hb : Path.IsBelow b.relative.toList) (dir : String) :
    a.outputPath dir = b.outputPath dir ↔
      Path.withoutExtension a.relative.toList = Path.withoutExtension b.relative.toList := by
  obtain ⟨front, hfront⟩ := Path.exists_join_eq_append dir.toList
  have htext {s : Source} (hs : Path.IsBelow s.relative.toList) : s.outputPath dir =
      String.ofList (front ++ (Path.withoutExtension s.relative.toList ++ Path.compiledExtension)) :=
    congrArg String.ofList (hfront _ hs.isLocal_stylesheet)
  rw [htext ha, htext hb, String.ofList_inj, List.append_cancel_left_eq, List.append_cancel_right_eq]

/-- Two collected sources share the path of their stylesheet exactly when their own paths agree up
to the extension.  Two files found below one directory then differ in the extension alone. -/
theorem outputPath_eq_iff {paths : List String} {sources : List Source}
    (h : collect config tree paths = .ok sources) (dir : String) :
    (∀ a ∈ sources, ∀ b ∈ sources, a.outputPath dir = b.outputPath dir ↔
      Path.withoutExtension a.relative.toList = Path.withoutExtension b.relative.toList) ∧
    ∀ path ∈ paths, ∀ found, ofPath config tree path = .ok found →
      ∀ a ∈ found, ∀ b ∈ found, a.path ≠ b.path → a.outputPath dir = b.outputPath dir →
        Path.extension a.relative.toList ≠ Path.extension b.relative.toList := by
  constructor
  · intro a ha b hb
    obtain ⟨root, -, found, hof, hfound⟩ := exists_ofPath_of_mem_collect h ha
    obtain ⟨root', -, found', hof', hfound'⟩ := exists_ofPath_of_mem_collect h hb
    exact outputPath_eq_iff_of_isBelow (isBelow_relative hof hfound)
      (isBelow_relative hof' hfound') dir
  · intro path hpath found hof a ha b hb hne houtput hextension
    have hstem := (outputPath_eq_iff_of_isBelow (isBelow_relative hof ha)
      (isBelow_relative hof hb) dir).mp houtput
    have hrelative : a.relative.toList = b.relative.toList := by
      rw [← Path.withoutExtension_append_extension a.relative.toList, hstem, hextension,
        Path.withoutExtension_append_extension]
    exact hne (path_eq_of_relative_eq hof ha hb (String.toList_injective hrelative))

/-- A directory with two stylesheets that differ in their extension, and a file beside it. -/
def site : Tree :=
  Tree.ofFiles [("top.hcss", ""), ("src/parts/main.hcss", ""), ("src/main.hcss", ""),
    ("src/main.css", "")]

/-- Both extensions are those of sources. -/
def siteConfig : Config := { extensions := [".hcss", ".css"] }

/-- What is collected from the directory and the file. -/
def siteSources : List Source :=
  [⟨"src/main.css", "main.css"⟩, ⟨"src/main.hcss", "main.hcss"⟩,
    ⟨"src/parts/main.hcss", "parts/main.hcss"⟩, ⟨"top.hcss", "top.hcss"⟩]

theorem outputPath_eq_iff_site :
    collect siteConfig site ["src", "top.hcss"] = .ok siteSources ∧
      (∀ a ∈ siteSources, ∀ b ∈ siteSources, a.outputPath "dist" = b.outputPath "dist" ↔
        Path.withoutExtension a.relative.toList = Path.withoutExtension b.relative.toList) ∧
      ofPath siteConfig site "src" = .ok (siteSources.take 3) ∧
      ∀ a ∈ siteSources.take 3, ∀ b ∈ siteSources.take 3, a.path ≠ b.path →
        a.outputPath "dist" = b.outputPath "dist" →
          Path.extension a.relative.toList ≠ Path.extension b.relative.toList := by
  -- The files of the directory are listed in the order of a walk, so sorting them is no work.
  have hfiles : site.filesBelow ["src"] =
      [(["main.css"], ""), (["main.hcss"], ""), (["parts", "main.hcss"], "")] :=
    (List.mergeSort_of_pairwise (by decide +kernel)).trans (by decide +kernel)
  have hstat : site.stat "src" = .ok (["src"], .directory) := by decide +kernel
  have hsrc : ofPath siteConfig site "src" = .ok (siteSources.take 3) := by
    simp only [ofPath, hstat, hfiles]
    decide +kernel
  have htop : ofPath siteConfig site "top.hcss" = .ok (siteSources.drop 3) := by decide +kernel
  have hcollect : collect siteConfig site ["src", "top.hcss"] = .ok siteSources := by
    simp only [collect, List.mapM_cons, List.mapM_nil, hsrc, htop]
    decide +kernel
  obtain ⟨hshared, hbelow⟩ := outputPath_eq_iff hcollect "dist"
  exact ⟨hcollect, hshared, hsrc, hbelow "src" List.mem_cons_self _ hsrc⟩

/-- Two directories with files of one name. -/
def sameNames : Tree :=
  Tree.ofFiles [("a/x.hcss", ""), ("b/x.hcss", "")]

/-- The stylesheets of files of one name in different directories go to one path. -/
theorem outputPath_sameNames :
    ∃ sources, collect {} sameNames ["a", "b"] = .ok sources ∧
      ∃ a ∈ sources, ∃ b ∈ sources, a.path ≠ b.path ∧
        a.outputPath "dist" = b.outputPath "dist" := by
  refine ⟨[⟨"a/x.hcss", "x.hcss"⟩, ⟨"b/x.hcss", "x.hcss"⟩], by decide +kernel, ?_⟩
  exact ⟨_, List.mem_cons_self, _, List.mem_cons_of_mem _ List.mem_cons_self, by decide, rfl⟩

end Source

end Cascade
