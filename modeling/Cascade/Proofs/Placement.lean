import Cascade.Proofs.FlatTexts
import Cascade.Proofs.Outcomes
import Cascade.Proofs.StyleRules

/-!
# Where declarations are written

Laying a stylesheet flat takes style rules out of each other and takes at-rules out of
style rules.  Every declaration of the tree is written once for all that, inside the
at-rules that are around it in the tree and under the selectors that the style rules
around it give, and the declarations of one block stay in their order.

**Method.**  A `Site` is a declaration with its `Setting`: the way down to it and the
rules that are passed on the way.  `Entry.sites` lists the sites of a tree, and
`Flat.written` lists what flat rules write.  Laying flat moves declarations past rules,
so the two lists agree up to an exchange of declarations of different blocks
(`SameBlocks`); each of the three ways to lay a body flat is one induction over the body.
The text of flat rules is made of their parts (`Proofs.FlatTexts`), and what braces are
around a declaration among the parts is what it is written inside of (`enclosed_marks`).

**Results.**
* `places_flatten`: laying an entry flat writes the declarations of its sites.
* `ended_flatten`: declarations are said to end a body only where they do.
* `Sheet.formatRules_places`: where the text of a stylesheet has its declarations.
-/

namespace Cascade

/-! ## Sites of declarations -/

/-- What is around a place in a tree, the outermost first. -/
structure Setting where
  /-- The numbers of the entries in their bodies, on the way down. -/
  path : List Nat
  /-- The names and preludes of the at-rules. -/
  atRules : List (Token × List Value)
  /-- The selectors of the style rules. -/
  styles : List SelectorList
  /-- The prelude of the keyframe. -/
  frame : Option (List Value)

namespace Setting

/-- The setting of the rules of a stylesheet. -/
def top : Setting :=
  ⟨[], [], [], none⟩

/-- The setting of the `n`-th entry of a body. -/
def entry (here : Setting) (n : Nat) : Setting :=
  { here with path := here.path ++ [n] }

/-- The setting inside a style rule. -/
def inStyle (here : Setting) (list : SelectorList) : Setting :=
  { here with styles := here.styles ++ [list] }

/-- The setting inside an at-rule. -/
def inGroup (here : Setting) (name : Token) (prelude : List Value) : Setting :=
  { here with atRules := here.atRules ++ [(name, prelude)] }

/-- The setting inside a keyframe. -/
def inFrame (here : Setting) (prelude : List Value) : Setting :=
  { here with frame := some prelude }

/-- The resolved selectors of the style rules, folded from the outermost inwards. -/
def selectors (minify : Bool) (here : Setting) : List (List Char) :=
  here.styles.foldl (Output.resolveSelectors minify) []

/-- The texts of the at-rules. -/
def around (minify : Bool) (here : Setting) : List (List Char) :=
  here.atRules.map fun rule => Output.atHead minify rule.1 rule.2

/-- What declarations stand under: the prelude of the keyframe, or the selectors of the style rules.
Outside of both there is nothing. -/
def head (minify : Bool) (here : Setting) : Option (List Char) :=
  match here.frame with
  | some prelude => some (Output.valuesText minify prelude)
  | none =>
    if here.styles.isEmpty then none
    else some (Output.joinSelectors minify (here.selectors minify))

end Setting

/-- A declaration with its setting. -/
structure Site where
  setting : Setting
  declaration : Declaration

/-- The way down to the block that holds the declaration. -/
def Site.block (s : Site) : List Nat :=
  s.setting.path.dropLast

mutual

/-- The sites of the declarations in an entry. -/
def Entry.sites (here : Setting) : Entry → List Site
  | .declaration d => [⟨here, d⟩]
  | .style _ list body => sitesFrom (here.inStyle list) 0 body
  | .statement _ _ => []
  | .group name prelude _ body _ => sitesFrom (here.inGroup name prelude) 0 body
  | .keyframe prelude _ body _ => sitesFrom (here.inFrame prelude) 0 body
  | .loose _ => []

/-- The sites of the declarations in a body, from its `n`-th entry on. -/
def sitesFrom (here : Setting) : Nat → List Entry → List Site
  | _, [] => []
  | n, e :: rest => e.sites (here.entry n) ++ sitesFrom here (n + 1) rest

end

/-- The sites of the declarations that stand in a body itself, from its `n`-th entry on. -/
def ownSitesFrom (here : Setting) : Nat → List Entry → List Site
  | _, [] => []
  | n, .declaration d :: rest => ⟨here.entry n, d⟩ :: ownSitesFrom here (n + 1) rest
  | n, _ :: rest => ownSitesFrom here (n + 1) rest

/-! ## Ways down to sites -/

namespace Entry

/-- The sites in a rule are those of its body. -/
theorem exists_sites_eq {e : Entry} (here : Setting) (hrule : e.isDeclaration = false) :
    ∃ inside : Setting, inside.path = here.path ∧ e.sites here = sitesFrom inside 0 e.body := by
  cases e with
  | declaration d => cases hrule
  | style _ list _ => exact ⟨here.inStyle list, rfl, by rw [sites, body]⟩
  | group name prelude _ _ _ => exact ⟨here.inGroup name prelude, rfl, by rw [sites, body]⟩
  | keyframe prelude _ _ _ => exact ⟨here.inFrame prelude, rfl, by rw [sites, body]⟩
  | statement | loose => exact ⟨here, rfl, by simp [sites, body, sitesFrom]⟩

theorem sites_of_declaration {e : Entry} (here : Setting) (hdecl : e.isDeclaration = true) :
    ∃ d, e.sites here = [⟨here, d⟩] := by
  cases e with
  | declaration d => exact ⟨d, by rw [sites]⟩
  | _ => cases hdecl

/-- The way down to a site in the entry goes through the entry. -/
def IsOnWay (e : Entry) : Prop :=
  ∀ (here : Setting), ∀ s ∈ e.sites here, here.path <+: s.setting.path

end Entry

/-- The way down to a site in a body goes through one of its entries. -/
theorem exists_of_mem_sitesFrom {body : List Entry} (hbody : ∀ e ∈ body, e.IsOnWay) {here : Setting}
    {n : Nat} {s : Site} (h : s ∈ sitesFrom here n body) :
    ∃ m, n ≤ m ∧ here.path ++ [m] <+: s.setting.path := by
  induction body generalizing n with
  | nil => simp [sitesFrom] at h
  | cons e rest ih =>
      obtain ⟨he, hrest⟩ := List.forall_mem_cons.mp hbody
      rw [sitesFrom] at h
      rcases List.mem_append.mp h with h | h
      · exact ⟨n, le_rfl, he (here.entry n) s h⟩
      · obtain ⟨m, hm, hprefix⟩ := ih hrest h
        exact ⟨m, Nat.le_of_succ_le hm, hprefix⟩

theorem Entry.isOnWay (e : Entry) :
    e.IsOnWay := by
  induction e using induction_body with
  | h e ih =>
      intro here s hs
      cases hdecl : e.isDeclaration with
      | true =>
          obtain ⟨d, hd⟩ := sites_of_declaration here hdecl
          rw [hd, List.mem_singleton] at hs
          exact hs ▸ List.prefix_rfl
      | false =>
          obtain ⟨inside, hpath, hsites⟩ := exists_sites_eq here hdecl
          obtain ⟨m, -, hprefix⟩ := exists_of_mem_sitesFrom ih (hsites ▸ hs)
          exact hpath ▸ (List.prefix_append _ _).trans hprefix

/-- The block of a site in a body is the body itself or stands in it. -/
theorem prefix_block_of_mem_sitesFrom {body : List Entry} {here : Setting} {n : Nat} {s : Site}
    (h : s ∈ sitesFrom here n body) :
    here.path <+: s.block := by
  obtain ⟨m, -, rest, hpath⟩ := exists_of_mem_sitesFrom (fun e _ => e.isOnWay) h
  rw [Site.block, ← hpath, List.append_assoc, List.dropLast_append_of_ne_nil (by simp)]
  exact List.prefix_append _ _

/-- No site inside a rule of a body stands in the body itself. -/
theorem Entry.block_ne_of_mem_sites {e : Entry} {here : Setting} {n : Nat} {s : Site}
    (hrule : e.isDeclaration = false) (hs : s ∈ e.sites (here.entry n)) :
    s.block ≠ here.path := by
  obtain ⟨inside, hpath, hsites⟩ := exists_sites_eq (here.entry n) hrule
  have hprefix := (prefix_block_of_mem_sitesFrom (hsites ▸ hs)).length_le
  rw [hpath, Setting.entry, List.length_append, List.length_singleton] at hprefix
  intro hblock
  rw [hblock] at hprefix
  omega

theorem block_of_mem_ownSitesFrom {body : List Entry} {here : Setting} {n : Nat} {s : Site}
    (h : s ∈ ownSitesFrom here n body) :
    s.block = here.path := by
  induction body generalizing n with
  | nil => cases h
  | cons e rest ih =>
      cases e with
      | declaration d =>
          rcases List.mem_cons.mp h with rfl | h
          · exact List.dropLast_concat
          · exact ih h
      | _ => exact ih h

/-- In a body whose entries hold no two sites with one way down to them, neither do the body's. -/
theorem nodup_sitesFrom {body : List Entry}
    (hbody : ∀ e ∈ body, ∀ here, ((e.sites here).map (·.setting.path)).Nodup) (here : Setting)
    (n : Nat) :
    ((sitesFrom here n body).map (·.setting.path)).Nodup := by
  induction body generalizing n with
  | nil => simp [sitesFrom]
  | cons e rest ih =>
      obtain ⟨he, hrest⟩ := List.forall_mem_cons.mp hbody
      rw [sitesFrom, List.map_append]
      refine List.nodup_append.mpr ⟨he _, ih hrest (n + 1), ?_⟩
      intro path hfirst other hlater hpath
      obtain ⟨s, hs, rfl⟩ := List.mem_map.mp hfirst
      obtain ⟨s', hs', rfl⟩ := List.mem_map.mp hlater
      -- The two ways part at the entry that they go through.
      obtain ⟨m, hm, tail, htail⟩ := exists_of_mem_sitesFrom (fun e _ => e.isOnWay) hs'
      obtain ⟨tail', htail'⟩ := e.isOnWay (here.entry n) s hs
      rw [← htail, ← htail', Setting.entry] at hpath
      simp only [List.append_assoc, List.append_cancel_left_eq, List.cons_append, List.cons.injEq]
        at hpath
      omega

/-- No two sites of an entry have the same way down to them. -/
theorem Entry.nodup_sites (e : Entry) (here : Setting) :
    ((e.sites here).map (·.setting.path)).Nodup := by
  induction e using induction_body generalizing here with
  | h e ih =>
      cases hdecl : e.isDeclaration with
      | true =>
          obtain ⟨d, hd⟩ := sites_of_declaration here hdecl
          simp [hd]
      | false =>
          obtain ⟨inside, -, hsites⟩ := exists_sites_eq here hdecl
          rw [hsites]
          exact nodup_sitesFrom ih inside 0

/-! ## Lists of sites with the same blocks -/

/-- The lists hold the same sites of every block, in the same order. -/
def SameBlocks (xs ys : List Site) : Prop :=
  ∀ block, xs.filter (·.block = block) = ys.filter (·.block = block)

namespace SameBlocks

variable {xs ys zs xs' ys' : List Site}

theorem refl (xs : List Site) :
    SameBlocks xs xs :=
  fun _ => rfl

theorem trans (hxy : SameBlocks xs ys) (hyz : SameBlocks ys zs) :
    SameBlocks xs zs :=
  fun block => (hxy block).trans (hyz block)

theorem append (hx : SameBlocks xs xs') (hy : SameBlocks ys ys') :
    SameBlocks (xs ++ ys) (xs' ++ ys') := by
  intro block
  rw [List.filter_append, List.filter_append, hx block, hy block]

/-- Sites of different blocks can be exchanged. -/
theorem swap (h : ∀ x ∈ xs, ∀ y ∈ ys, x.block ≠ y.block) :
    SameBlocks (xs ++ ys) (ys ++ xs) := by
  intro block
  rw [List.filter_append, List.filter_append]
  by_cases hx : ∃ x ∈ xs, x.block = block
  · obtain ⟨x, hmem, rfl⟩ := hx
    have hys : ys.filter (·.block = x.block) = [] :=
      List.filter_eq_nil_iff.mpr fun y hy => by simpa using (h x hmem y hy).symm
    rw [hys, List.append_nil, List.nil_append]
  · have hxs : xs.filter (·.block = block) = [] :=
      List.filter_eq_nil_iff.mpr fun x hmem => by simpa using fun heq => hx ⟨x, hmem, heq⟩
    rw [hxs, List.append_nil, List.nil_append]

open Classical in
/-- No site is lost and none is repeated. -/
theorem perm (h : SameBlocks xs ys) :
    xs.Perm ys := by
  refine List.perm_iff_count.mpr fun s => ?_
  have hcount (zs : List Site) : (zs.filter (·.block = s.block)).count s = zs.count s :=
    List.count_filter (by simp)
  rw [← hcount xs, ← hcount ys, h s.block]

end SameBlocks

/-! ## What flat rules write -/

/-- A declaration with the texts that it is written inside of: those of the at-rules, the outermost
first, and the one that it stands under. -/
structure Written where
  around : List (List Char)
  head : Option (List Char)
  declaration : Declaration

/-- The declaration with all texts that it is written inside of, the outermost first. -/
def Written.enclosed (w : Written) : List (List Char) × Declaration :=
  (w.around ++ w.head.toList, w.declaration)

/-- How the declaration of a site is to be written. -/
def Site.written (minify : Bool) (s : Site) : Written :=
  ⟨s.setting.around minify, s.setting.head minify, s.declaration⟩

namespace Output

mutual

/-- The declarations that a flat rule writes, in order. -/
def Flat.written (around : List (List Char)) : Flat → List Written
  | .rule head decls => decls.map (⟨around, some head, ·⟩)
  | .statement _ => []
  | .group head body => writtenAll (around ++ [head]) body
  | .declarations decls _ => decls.map (⟨around, none, ·⟩)

/-- The declarations that flat rules write, in order. -/
def writtenAll (around : List (List Char)) : List Flat → List Written
  | [] => []
  | flat :: rest => flat.written around ++ writtenAll around rest

end

theorem writtenAll_append (around : List (List Char)) (xs ys : List Flat) :
    writtenAll around (xs ++ ys) = writtenAll around xs ++ writtenAll around ys := by
  induction xs with
  | nil => rfl
  | cons flat rest ih => rw [List.cons_append, writtenAll, writtenAll, ih, List.append_assoc]

theorem writtenAll_singleton (around : List (List Char)) (flat : Flat) :
    writtenAll around [flat] = flat.written around := by
  rw [writtenAll, writtenAll, List.append_nil]

mutual

/-- In the parts of a flat rule the declarations stand inside of the texts that they are written
inside of. -/
theorem enclosed_marks (around : List (List Char)) (marks : List Mark) :
    ∀ flat : Flat, enclosed around (flat.marks ++ marks) =
      (enclosed around marks).map ((flat.written around).map Written.enclosed ++ ·)
  | .rule head decls => by
      rw [Flat.marks, List.cons_append, enclosed, List.append_assoc, enclosed_declarations,
        List.singleton_append, enclosed_closing, Flat.written, List.map_map]
      rfl
  | .statement head => by
      rw [Flat.marks, Flat.written, List.singleton_append, enclosed]
      simp
  | .group head body => by
      rw [Flat.marks, List.cons_append, enclosed, List.append_assoc, enclosed_marksOf,
        List.singleton_append, enclosed_closing, Flat.written]
  | .declarations decls _ => by
      have hwritten : (decls.map (⟨around, none, ·⟩)).map Written.enclosed =
          decls.map (around, ·) := by
        simp [Written.enclosed]
      rw [Flat.marks, enclosed_declarations, Flat.written, hwritten]

theorem enclosed_marksOf (around : List (List Char)) (marks : List Mark) :
    ∀ flats : List Flat, enclosed around (marksOf flats ++ marks) =
      (enclosed around marks).map ((writtenAll around flats).map Written.enclosed ++ ·)
  | [] => by
      rw [marksOf, writtenAll]
      simp
  | flat :: rest => by
      rw [marksOf, List.append_assoc, enclosed_marks, enclosed_marksOf, Option.map_map, writtenAll,
        List.map_append]
      congr 1
      funext ws
      exact (List.append_assoc _ _ _).symm

end

/-- The flat rules, in a setting, write the declarations of the sites. -/
def Places (minify : Bool) (here : Setting) (flats : List Flat) (sites : List Site) : Prop :=
  ∃ order : List Site, writtenAll (here.around minify) flats = order.map (Site.written minify) ∧
    SameBlocks order sites

/-- The declarations among the entries of a body are written in its setting. -/
theorem written_ownSitesFrom (minify : Bool) (here : Setting) (n : Nat) (body : List Entry) :
    (ownSitesFrom here n body).map (Site.written minify) =
      (declarationsOf body).map (⟨here.around minify, here.head minify, ·⟩) := by
  induction body generalizing n with
  | nil => rfl
  | cons e rest ih =>
      cases e with
      | declaration d => exact congrArg _ (ih (n + 1))
      | _ => exact ih (n + 1)

/-! ## Laying bodies flat -/

/-- A setting outside of keyframes, in which every style rule has a selector. -/
structure IsOpen (here : Setting) : Prop where
  frame : here.frame = none
  styles : ∀ list ∈ here.styles, list ≠ []

theorem isOpen_top :
    IsOpen .top :=
  ⟨rfl, nofun⟩

theorem IsOpen.entry {here : Setting} (h : IsOpen here) (n : Nat) :
    IsOpen (here.entry n) :=
  ⟨h.frame, h.styles⟩

theorem IsOpen.inGroup {here : Setting} (h : IsOpen here) (name : Token) (prelude : List Value) :
    IsOpen (here.inGroup name prelude) :=
  ⟨h.frame, h.styles⟩

theorem IsOpen.inStyle {here : Setting} (h : IsOpen here) {list : SelectorList} (hlist : list ≠ []) :
    IsOpen (here.inStyle list) := by
  refine ⟨h.frame, fun other hother => ?_⟩
  rcases List.mem_append.mp hother with hother | hother
  · exact h.styles other hother
  · exact List.mem_singleton.mp hother ▸ hlist

theorem selectors_inStyle (minify : Bool) (here : Setting) (list : SelectorList) :
    (here.inStyle list).selectors minify = resolveSelectors minify (here.selectors minify) list := by
  simp [Setting.selectors, Setting.inStyle]

theorem around_inGroup (minify : Bool) (here : Setting) (name : Token) (prelude : List Value) :
    (here.inGroup name prelude).around minify = here.around minify ++ [atHead minify name prelude] := by
  simp [Setting.around, Setting.inGroup]

theorem head_of_frame_none {here : Setting} (h : here.frame = none) (minify : Bool) :
    here.head minify =
      if here.styles.isEmpty then none else some (joinSelectors minify (here.selectors minify)) := by
  rw [Setting.head, h]

theorem head_inStyle {here : Setting} (h : here.frame = none) (minify : Bool) (list : SelectorList) :
    (here.inStyle list).head minify =
      some (joinSelectors minify (resolveSelectors minify (here.selectors minify) list)) := by
  have hframe : (here.inStyle list).frame = none := h
  rw [head_of_frame_none hframe, selectors_inStyle, if_neg]
  simp [Setting.inStyle]

/-- There are selectors exactly inside of style rules. -/
theorem IsOpen.selectors_isEmpty {here : Setting} (h : IsOpen here) (minify : Bool) :
    (here.selectors minify).isEmpty = here.styles.isEmpty := by
  rcases List.eq_nil_or_concat here.styles with hnil | ⟨outer, list, hstyles⟩
  · simp [Setting.selectors, hnil]
  · have hlist : list ≠ [] := h.styles list (by simp [hstyles])
    have hne := resolveSelectors_list_ne_nil hlist minify (outer.foldl (resolveSelectors minify) [])
    rw [Setting.selectors, hstyles, List.concat_eq_append, List.foldl_append, List.foldl_cons,
      List.foldl_nil, List.isEmpty_eq_false_iff.mpr hne, List.isEmpty_eq_false_iff.mpr (by simp)]

/-- Laying the entry flat in any open setting writes the declarations of its sites. -/
def LaysFlat (minify : Bool) (e : Entry) : Prop :=
  ∀ (here : Setting) (flats : List Flat), IsOpen here →
    flatten minify (here.selectors minify) e = .ok flats → Places minify here flats (e.sites here)

/-- A rule that is laid flat inside a body brings the rules behind it along. -/
theorem Places.append {minify : Bool} {here : Setting} {first others : List Flat}
    {xs ys : List Site} (hfirst : Places minify here first xs) (hothers : Places minify here others ys) :
    Places minify here (first ++ others) (xs ++ ys) := by
  obtain ⟨order, hwritten, hsame⟩ := hfirst
  obtain ⟨order', hwritten', hsame'⟩ := hothers
  refine ⟨order ++ order', ?_, hsame.append hsame'⟩
  rw [writtenAll_append, hwritten, hwritten', List.map_append]

theorem ownSitesFrom_cons {e : Entry} (hrule : e.isDeclaration = false) (here : Setting) (n : Nat)
    (rest : List Entry) :
    ownSitesFrom here n (e :: rest) = ownSitesFrom here (n + 1) rest := by
  cases e with
  | declaration d => cases hrule
  | _ => rfl

/-- The rules of a body are laid flat behind all of its declarations. -/
theorem exists_of_flattenRules {minify : Bool} {here : Setting} (hhere : IsOpen here)
    {body : List Entry}
    (hbody : ∀ e ∈ body, e.isDeclaration = false → LaysFlat minify e) (n : Nat) {flats : List Flat}
    (h : flattenRules minify (here.selectors minify) body = .ok flats) :
    ∃ order : List Site,
      writtenAll (here.around minify) flats = order.map (Site.written minify) ∧
        SameBlocks (ownSitesFrom here n body ++ order) (sitesFrom here n body) := by
  induction body generalizing n flats with
  | nil =>
      rw [flattenRules] at h
      cases h
      exact ⟨[], rfl, .refl []⟩
  | cons e rest ih =>
      obtain ⟨he, hrest⟩ := List.forall_mem_cons.mp hbody
      cases hdecl : e.isDeclaration with
      | true =>
          cases e with
          | declaration d =>
              rw [flattenRules] at h
              obtain ⟨order, hwritten, hsame⟩ := ih hrest (n + 1) h
              have hfront := SameBlocks.append (.refl [⟨here.entry n, d⟩]) hsame
              refine ⟨order, hwritten, ?_⟩
              rw [sitesFrom, Entry.sites]
              exact hfront
          | _ => cases hdecl
      | false =>
          rw [flattenRules_cons hdecl] at h
          obtain ⟨first, hfirst, h⟩ := Outcome.ok_of_bind h
          obtain ⟨others, hothers, h⟩ := Outcome.ok_of_bind h
          cases h
          obtain ⟨front, hfront, hblocks⟩ := he hdecl (here.entry n) first (hhere.entry n) hfirst
          obtain ⟨order, hwritten, hsame⟩ := ih hrest (n + 1) hothers
          refine ⟨front ++ order, ?_, ?_⟩
          · rw [writtenAll_append, hwritten, List.map_append, ← hfront]
            rfl
          · rw [ownSitesFrom_cons hdecl, sitesFrom]
            -- The declarations behind the rule are written in front of it.
            have hexchange : SameBlocks (ownSitesFrom here (n + 1) rest ++ front)
                (front ++ ownSitesFrom here (n + 1) rest) := by
              refine .swap fun x hx y hy hblock => ?_
              have hy' := hblocks.perm.mem_iff.mp hy
              exact Entry.block_ne_of_mem_sites hdecl hy'
                (hblock ▸ block_of_mem_ownSitesFrom hx)
            have hmoved := hexchange.append (.refl order)
            rw [List.append_assoc, List.append_assoc] at hmoved
            exact hmoved.trans (hblocks.append hsame)

/-- The declarations of a body at the top level are written where they stand. -/
theorem exists_of_flattenBody {minify : Bool} {here : Setting} (hhere : IsOpen here)
    (htop : here.styles = []) {body : List Entry}
    (hbody : ∀ e ∈ body, e.isDeclaration = false → LaysFlat minify e) (n : Nat)
    {run : List Declaration} {flats : List Flat} (h : flattenBody minify run body = .ok flats) :
    ∃ order : List Site,
      writtenAll (here.around minify) flats =
        run.reverse.map (⟨here.around minify, none, ·⟩) ++ order.map (Site.written minify) ∧
        SameBlocks order (sitesFrom here n body) := by
  -- A run of declarations is one flat rule, if there are any.
  have hrun (run : List Declaration) (last : Bool) (flats : List Flat) :
      writtenAll (here.around minify)
          ((if run.isEmpty then [] else [.declarations run.reverse last]) ++ flats) =
        run.reverse.map (⟨here.around minify, none, ·⟩) ++ writtenAll (here.around minify) flats := by
    cases run with
    | nil => rfl
    | cons d ds => rw [if_neg (by simp), writtenAll_append, writtenAll_singleton, Flat.written]
  induction body generalizing n run flats with
  | nil =>
      rw [flattenBody] at h
      cases h
      have hlast := hrun run true []
      rw [List.append_nil] at hlast
      exact ⟨[], hlast, .refl []⟩
  | cons e rest ih =>
      obtain ⟨he, hrest⟩ := List.forall_mem_cons.mp hbody
      cases hdecl : e.isDeclaration with
      | true =>
          cases e with
          | declaration d =>
              rw [flattenBody] at h
              obtain ⟨order, hwritten, hsame⟩ := ih hrest (n + 1) h
              have hfront := SameBlocks.append (.refl [⟨here.entry n, d⟩]) hsame
              refine ⟨⟨here.entry n, d⟩ :: order, ?_, ?_⟩
              · have hhead : (here.entry n).head minify = none := by
                  rw [head_of_frame_none (hhere.entry n).frame, Setting.entry, htop]
                  rfl
                have hfirst : Site.written minify ⟨here.entry n, d⟩ =
                    ⟨here.around minify, none, d⟩ := by
                  rw [← hhead]
                  rfl
                rw [List.map_cons, hfirst, hwritten, List.reverse_cons, List.map_append,
                  List.append_assoc]
                rfl
              · rw [sitesFrom, Entry.sites]
                exact hfront
          | _ => cases hdecl
      | false =>
          rw [flattenBody_cons hdecl] at h
          obtain ⟨first, hfirst, h⟩ := Outcome.ok_of_bind h
          obtain ⟨others, hothers, h⟩ := Outcome.ok_of_bind h
          cases h
          have hselectors : (here.entry n).selectors minify = [] := by
            simp [Setting.selectors, Setting.entry, htop]
          obtain ⟨front, hfront, hblocks⟩ := he hdecl (here.entry n) first (hhere.entry n)
            (hselectors ▸ hfirst)
          obtain ⟨order, hwritten, hsame⟩ := ih hrest (n + 1) hothers
          refine ⟨front ++ order, ?_, hblocks.append hsame⟩
          rw [List.append_assoc, hrun, writtenAll_append, hwritten, List.map_append, ← hfront]
          rfl

/-! ## Ends of bodies -/

/-- However the entry is laid flat, declarations that are said to end a body end one. -/
def EndsBodies (minify : Bool) (e : Entry) : Prop :=
  ∀ (parents : List (List Char)) (flats : List Flat),
    flatten minify parents e = .ok flats → Ended false flats

theorem ended_flattenRules {minify : Bool} {parents : List (List Char)} {body : List Entry}
    (hbody : ∀ e ∈ body, EndsBodies minify e) {flats : List Flat}
    (h : flattenRules minify parents body = .ok flats) :
    Ended false flats := by
  induction body generalizing flats with
  | nil =>
      rw [flattenRules] at h
      cases h
      exact .nil
  | cons e rest ih =>
      obtain ⟨he, hrest⟩ := List.forall_mem_cons.mp hbody
      cases hdecl : e.isDeclaration with
      | true =>
          cases e with
          | declaration d =>
              rw [flattenRules] at h
              exact ih hrest h
          | _ => cases hdecl
      | false =>
          rw [flattenRules_cons hdecl] at h
          obtain ⟨first, hfirst, h⟩ := Outcome.ok_of_bind h
          obtain ⟨others, hothers, h⟩ := Outcome.ok_of_bind h
          cases h
          exact (he parents first hfirst).append (ih hrest hothers)

theorem ended_flattenBody {minify : Bool} {body : List Entry}
    (hbody : ∀ e ∈ body, EndsBodies minify e) {run : List Declaration} {flats : List Flat}
    (h : flattenBody minify run body = .ok flats) :
    Ended true flats := by
  induction body generalizing run flats with
  | nil =>
      rw [flattenBody] at h
      cases h
      split
      · exact .nil
      · exact .last _
  | cons e rest ih =>
      obtain ⟨he, hrest⟩ := List.forall_mem_cons.mp hbody
      cases hdecl : e.isDeclaration with
      | true =>
          cases e with
          | declaration d =>
              rw [flattenBody] at h
              exact ih hrest h
          | _ => cases hdecl
      | false =>
          rw [flattenBody_cons hdecl] at h
          obtain ⟨first, hfirst, h⟩ := Outcome.ok_of_bind h
          obtain ⟨others, hothers, h⟩ := Outcome.ok_of_bind h
          cases h
          have hbehind := (he [] first hfirst).append (ih hrest hothers)
          rw [List.append_assoc]
          split
          · exact hbehind
          · exact .declarations _ hbehind

theorem ended_flatten (minify : Bool) (e : Entry) :
    EndsBodies minify e := by
  induction e using Entry.induction_body with
  | h e ih =>
      intro parents flats h
      cases e with
      | declaration | loose =>
          rw [flatten] at h
          · cases h
          all_goals
            intros
            contradiction
      | statement name prelude =>
          rw [flatten] at h
          cases h
          exact .statement _ .nil
      | style prelude list body =>
          rw [flatten] at h
          split at h
          · cases h
          · obtain ⟨nested, hnested, h⟩ := Outcome.ok_of_bind h
            have hrules := ended_flattenRules ih hnested
            split at h
            · cases h
              exact hrules
            · cases h
              exact .rule _ _ hrules
      | group name prelude opener body closer =>
          rw [flatten] at h
          split at h
          · obtain ⟨inside, hinside, h⟩ := Outcome.ok_of_bind h
            cases h
            exact .group _ (ended_flattenBody ih hinside) .nil
          · obtain ⟨nested, hnested, h⟩ := Outcome.ok_of_bind h
            cases h
            have hrules := (ended_flattenRules ih hnested).body
            refine .group _ ?_ .nil
            split
            · exact hrules
            · exact .rule _ _ hrules
      | keyframe prelude opener body closer =>
          rw [flatten] at h
          split at h
          · cases h
          · cases h
            exact .rule _ _ .nil

/-! ## Laying entries flat -/

theorem misplacedInKeyframe?_cons {e : Entry} {rest : List Entry}
    (h : misplacedInKeyframe? (e :: rest) = none) :
    (∃ d, e = .declaration d) ∧ misplacedInKeyframe? rest = none := by
  cases e with
  | declaration d => exact ⟨⟨d, rfl⟩, h⟩
  | _ => cases h

/-- The body of a keyframe that is written holds nothing but declarations. -/
theorem sitesFrom_eq_own {body : List Entry} (h : misplacedInKeyframe? body = none) (here : Setting)
    (n : Nat) :
    sitesFrom here n body = ownSitesFrom here n body := by
  induction body generalizing n with
  | nil => rfl
  | cons e rest ih =>
      obtain ⟨⟨d, rfl⟩, hrest⟩ := misplacedInKeyframe?_cons h
      rw [sitesFrom, ih hrest, Entry.sites]
      rfl

theorem places_keyframe {minify : Bool} {here : Setting} {prelude : List Value} {opener : Token}
    {body : List Entry} {closer : Option Token} {flats : List Flat}
    (h : flatten minify (here.selectors minify) (.keyframe prelude opener body closer) = .ok flats) :
    Places minify here flats ((Entry.keyframe prelude opener body closer).sites here) := by
  rw [flatten] at h
  cases hmisplaced : misplacedInKeyframe? body with
  | some e =>
      rw [hmisplaced] at h
      cases h
  | none =>
      rw [hmisplaced] at h
      cases h
      rw [Entry.sites, sitesFrom_eq_own hmisplaced]
      refine ⟨ownSitesFrom (here.inFrame prelude) 0 body, ?_, .refl _⟩
      rw [writtenAll_singleton, written_ownSitesFrom, Flat.written]
      rfl

theorem places_group {minify : Bool} {here : Setting} (hhere : IsOpen here) {name : Token}
    {prelude : List Value} {opener : Token} {body : List Entry} {closer : Option Token}
    {flats : List Flat}
    (hbody : ∀ e ∈ body, e.isDeclaration = false → LaysFlat minify e)
    (h : flatten minify (here.selectors minify) (.group name prelude opener body closer) =
      .ok flats) :
    Places minify here flats ((Entry.group name prelude opener body closer).sites here) := by
  have hinside := hhere.inGroup name prelude
  have hstyles := hhere.selectors_isEmpty minify
  rw [flatten, hstyles] at h
  rw [Entry.sites]
  unfold Places
  cases hempty : here.styles.isEmpty with
  | true =>
      rw [hempty, if_pos rfl] at h
      obtain ⟨flats, hflats, h⟩ := Outcome.ok_of_bind h
      cases h
      obtain ⟨order, hwritten, hsame⟩ :=
        exists_of_flattenBody hinside (List.isEmpty_iff.mp hempty) hbody 0 hflats
      refine ⟨order, ?_, hsame⟩
      rw [writtenAll_singleton, Flat.written, ← around_inGroup, hwritten]
      rfl
  | false =>
      rw [hempty, if_neg (by simp)] at h
      obtain ⟨nested, hnested, h⟩ := Outcome.ok_of_bind h
      cases h
      obtain ⟨order, hwritten, hsame⟩ := exists_of_flattenRules hinside hbody 0 hnested
      refine ⟨_, ?_, hsame⟩
      have hhead : (here.inGroup name prelude).head minify =
          some (joinSelectors minify (here.selectors minify)) := by
        rw [head_of_frame_none hinside.frame, Setting.inGroup, hempty]
        rfl
      rw [writtenAll_singleton, Flat.written, ← around_inGroup, writtenAll_append, hwritten,
        List.map_append, written_ownSitesFrom, hhead]
      congr 1
      cases declarationsOf body with
      | nil => rfl
      | cons d ds => rw [List.isEmpty_cons, if_neg (by simp), writtenAll_singleton, Flat.written]

theorem places_style {minify : Bool} {here : Setting} (hhere : IsOpen here) {prelude : List Value}
    {list : SelectorList} (hlist : list ≠ []) {body : List Entry} {flats : List Flat}
    (hmisplaced : misplacedInStyle? body = none)
    (hbody : ∀ e ∈ body, e.isDeclaration = false → LaysFlat minify e)
    (h : flatten minify (here.selectors minify) (.style prelude list body) = .ok flats) :
    Places minify here flats ((Entry.style prelude list body).sites here) := by
  rw [flatten, hmisplaced] at h
  obtain ⟨nested, hnested, h⟩ := Outcome.ok_of_bind h
  have hinside := hhere.inStyle hlist
  rw [← selectors_inStyle] at hnested
  obtain ⟨order, hwritten, hsame⟩ := exists_of_flattenRules hinside hbody 0 hnested
  rw [Entry.sites]
  refine ⟨_, ?_, hsame⟩
  have hown := written_ownSitesFrom minify (here.inStyle list) 0 body
  rw [head_inStyle hhere.frame] at hown
  rw [List.map_append, ← hwritten, hown]
  -- A rule without declarations may be left out.
  split at h
  · next hdropped =>
      cases h
      have hnil : declarationsOf body = [] := by
        simp only [Bool.and_eq_true, List.isEmpty_iff] at hdropped
        exact hdropped.1
      rw [hnil]
      rfl
  · cases h
    rfl

/-- Laying an entry flat writes the declarations of its sites, each of them once. -/
theorem places_flatten {P : Token → Prop} {S : ComplexSelector → Prop} {inKeyframes : Bool}
    {e : Entry} (hshaped : e.Shaped S inKeyframes) (hfaithful : e.Faithful P)
    (hrule : e.isDeclaration = false) (minify : Bool) :
    LaysFlat minify e := by
  induction hshaped with
  | declaration d => cases hrule
  | @style prelude list body _ hbody ih =>
      intro here flats hhere h
      have hlist : list ≠ [] :=
        Selector.ne_nil_of_parse (hfaithful prelude list body .self).2
      exact places_style hhere hlist (misplacedInStyle?_eq_none hbody)
        (fun e he hrule => ih e he (hfaithful.of_mem_body he) hrule) h
  | statement name prelude =>
      intro here flats hhere h
      rw [flatten] at h
      cases h
      exact ⟨[], rfl, .refl []⟩
  | group _ ih =>
      intro here flats hhere h
      exact places_group hhere (fun e he hrule => ih e he (hfaithful.of_mem_body he) hrule) h
  | keyframe _ _ =>
      intro here flats _ h
      exact places_keyframe h

end Output

/-! ## Stylesheets -/

namespace Sheet

/-- The rules of a stylesheet are laid flat one behind the other. -/
theorem places_mapM {minify : Bool} {rules : List Entry}
    (hrules : ∀ e ∈ rules, Output.LaysFlat minify e) (n : Nat) {flats : List (List Output.Flat)}
    (h : rules.mapM (Output.flatten minify []) = .ok flats) :
    Output.Places minify .top flats.flatten (sitesFrom .top n rules) := by
  induction rules generalizing n flats with
  | nil =>
      cases h
      exact ⟨[], rfl, .refl []⟩
  | cons e rest ih =>
      obtain ⟨he, hrest⟩ := List.forall_mem_cons.mp hrules
      obtain ⟨first, others, rfl, hfirst, hothers⟩ := Outcome.mapM_cons_ok.mp h
      rw [List.flatten_cons, sitesFrom]
      have hfront := he (Setting.top.entry n) first (Output.isOpen_top.entry n) hfirst
      exact Output.Places.append hfront (ih hrest (n + 1) hothers)

theorem ended_mapM {minify : Bool} {rules : List Entry} {flats : List (List Output.Flat)}
    (h : rules.mapM (Output.flatten minify []) = .ok flats) :
    Output.Ended false flats.flatten := by
  induction rules generalizing flats with
  | nil =>
      cases h
      exact .nil
  | cons e rest ih =>
      obtain ⟨first, others, rfl, hfirst, hothers⟩ := Outcome.mapM_cons_ok.mp h
      exact (Output.ended_flatten minify e [] first hfirst).append (ih hothers)

/-- In every style, the text of a stylesheet that has been read is the comment at its top and the parts
of flat rules: their preludes with the braces around their bodies, and their declarations, with
nothing but gaps between them.  The braces match, and the declarations in the text are those of the
stylesheet, each of them once: inside the texts of the at-rules around it, in their order, and under
what it stands under, which is the prelude of its keyframe, or the selectors that the style rules
around it give from the outermost inwards, or nothing outside of both.  The declarations of one block
are written in their order. -/
theorem formatRules_places {budget : Nat} {limits : Limits} {file source : String} {sheet : Sheet}
    (h : (parseTokens budget limits file (tokenize source)).1 = .ok sheet) {style : Style}
    {text : String} (htext : formatRules style sheet.rules = .ok text) :
    ∃ flats : List (List Output.Flat), ∃ body : List Char, ∃ order : List Site,
      sheet.rules.mapM (Output.flatten style.minify []) = .ok flats ∧
      text = String.ofList (Output.headerText style ++ body) ∧
      Output.Lays style.minify (Output.marksOf flats.flatten) body ∧
      Output.enclosed [] (Output.marksOf flats.flatten) =
        some (order.map fun s => (s.written style.minify).enclosed) ∧
      Output.writtenAll [] flats.flatten = order.map (Site.written style.minify) ∧
      order.Perm (sitesFrom .top 0 sheet.rules) ∧
      (order.map (·.setting.path)).Nodup ∧
      ∀ block, order.filter (·.block = block) =
        (sitesFrom .top 0 sheet.rules).filter (·.block = block) := by
  have hshaped := shaped_of_ok Output.aliasClosed_isSpelled (Lexer.covers_tokenize source).isSpelled
    (Lexer.exists_eof source) h
  have hfaithful := faithful_of_ok Output.aliasClosed_isSpelled
    (Lexer.covers_tokenize source).isSpelled (Lexer.exists_eof source) h
  unfold formatRules at htext
  cases hflats : sheet.rules.mapM (Output.flatten style.minify []) with
  | error m =>
      rw [hflats] at htext
      cases htext
  | ok flats =>
      rw [hflats] at htext
      cases htext
      have hrules (e : Entry) (he : e ∈ sheet.rules) : Output.LaysFlat style.minify e :=
        Output.places_flatten (hshaped e he).shaped (hfaithful e he) (hshaped e he).isRule _
      obtain ⟨order, hwritten, hsame⟩ := places_mapM hrules 0 hflats
      have hwritten : Output.writtenAll [] flats.flatten = order.map (Site.written style.minify) :=
        hwritten
      refine ⟨flats, _, order, rfl, rfl, Output.lays_intercalate style (ended_mapM hflats), ?_,
        hwritten, hsame.perm, ?_, hsame⟩
      · have henclosed := Output.enclosed_marksOf [] [] flats.flatten
        rw [List.append_nil, hwritten, List.map_map] at henclosed
        change _ = some (order.map (Written.enclosed ∘ Site.written style.minify))
        simpa [Output.enclosed] using henclosed
      · have hnodup := nodup_sitesFrom (fun e (_ : e ∈ sheet.rules) => e.nodup_sites) .top 0
        exact (hsame.perm.map _).nodup_iff.mpr hnodup

/-- Rules between the declarations of a style rule, one of them inside an at-rule. -/
def nestedRules : String :=
  "a\x7bb:c;@media d\x7be:f;&.g\x7bh:i\x7d\x7dj:k\x7d"

/-- The rules of the at-rule are written behind all declarations of the rule around it. -/
def nestedRulesText : List Char :=
  ("a \x7b\n  b: c;\n  j: k;\n\x7d\n\n@media d \x7b\n  a \x7b\n    e: f;\n  \x7d\n" ++
    "  a.g \x7b\n    h: i;\n  \x7d\n\x7d\n").toList

theorem formatRules_places_nestedRules :
    ∃ sheet text, (parse {} "" nestedRules).1 = .ok sheet ∧
      formatRules {} sheet.rules = .ok text ∧ text.toList = nestedRulesText ∧
      (sitesFrom .top 0 sheet.rules).length = 4 ∧
      ∃ flats : List (List Output.Flat), ∃ body : List Char, ∃ order : List Site,
        text = String.ofList (Output.headerText {} ++ body) ∧
        Output.Lays false (Output.marksOf flats.flatten) body ∧
        Output.enclosed [] (Output.marksOf flats.flatten) =
          some (order.map fun s => (s.written false).enclosed) ∧
        order.Perm (sitesFrom .top 0 sheet.rules) := by
  have hok : (parse {} "" nestedRules).1.toOption.any (fun sheet =>
      (formatRules {} sheet.rules).toOption.any (fun text => text.toList == nestedRulesText) &&
        (sitesFrom .top 0 sheet.rules).length == 4) = true := by
    decide +kernel
  cases h : (parse {} "" nestedRules).1 with
  | error stop =>
      rw [h] at hok
      cases hok
  | ok sheet =>
      rw [h, Except.toOption, Option.any_some, Bool.and_eq_true, beq_iff_eq] at hok
      cases htext : formatRules {} sheet.rules with
      | error m =>
          rw [htext] at hok
          cases hok.1
      | ok text =>
          rw [htext, Except.toOption, Option.any_some, beq_iff_eq] at hok
          obtain ⟨flats, body, order, -, hbody, hlays, henclosed, -, hperm, -⟩ :=
            formatRules_places h htext
          exact ⟨sheet, text, rfl, htext, hok.1, hok.2, flats, body, order, hbody, hlays, henclosed,
            hperm⟩

end Sheet
end Cascade
