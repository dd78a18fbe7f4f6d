import Cascade.Proofs.Placement
import Cascade.Proofs.ResolvedSelectors
import Cascade.Proofs.SelectorLists

/-!
# References to the parent in what is written

Every rule of a written stylesheet stands under the prelude of a keyframe or under the
selectors that a style rule and those around it give.  In these selectors a reference
to a parent has been replaced, unless it stands in the argument of a pseudo-class:
arguments are written as they stand.

**Method.**  `Nested` says which style rules are around an entry, and the heads of the
flat rules come from such nests by induction over the tree.  The tokens of a head are
those of `Proofs.ResolvedSelectors`.

**Results.**
* `heads_flatten`: what a flat rule stands under.
* `Sheet.written_references`: under which rules a reference is left, for a whole stylesheet.
* `Sheet.reference_left_in_argument`: there are stylesheets that leave one.
-/

namespace Cascade
open Lexer

/-! ## Nests of style rules -/

namespace Entry

/-- The entry stands in `top` inside the style rules with the given selectors, the outermost first. -/
inductive Nested (top : Entry) : List SelectorList → Entry → Prop
  | top : Nested top [] top
  | style {nest : List SelectorList} {prelude : List Value} {list : SelectorList}
      {body : List Entry} {e : Entry} :
      Nested top nest (.style prelude list body) → e ∈ body → Nested top (nest ++ [list]) e
  | group {nest : List SelectorList} {name : Token} {prelude : List Value} {opener : Token}
      {body : List Entry} {closer : Option Token} {e : Entry} :
      Nested top nest (.group name prelude opener body closer) → e ∈ body → Nested top nest e

/-- The selectors are those of a style rule in `top` and of the ones around it. -/
def IsNest (top : Entry) (nest : List SelectorList) : Prop :=
  ∃ outer prelude list body, Nested top outer (.style prelude list body) ∧ nest = outer ++ [list]

variable {top e : Entry} {nest : List SelectorList}

theorem Nested.eq_nil_or_isNest (h : Nested top nest e) :
    nest = [] ∨ top.IsNest nest := by
  induction h with
  | top => exact .inl rfl
  | style h _ _ => exact .inr ⟨_, _, _, _, h, rfl⟩
  | group _ _ ih => exact ih

theorem Nested.partOf (h : Nested top nest e) :
    PartOf e top := by
  induction h with
  | top => exact .self
  | @style _ prelude list body _ _ hmem ih =>
      exact PartOf.trans (.inside (y := .style prelude list body) .self hmem) ih
  | @group _ name prelude opener body closer _ _ hmem ih =>
      exact PartOf.trans (.inside (y := .group name prelude opener body closer) .self hmem) ih

/-- All selector lists of a nest are those of style rules. -/
theorem Nested.exists_style (h : Nested top nest e) :
    ∀ list ∈ nest, ∃ prelude body, PartOf (.style prelude list body) top := by
  induction h with
  | top => exact List.forall_mem_nil _
  | style h _ ih =>
      exact List.forall_mem_append.mpr ⟨ih, List.forall_mem_singleton.mpr ⟨_, _, h.partOf⟩⟩
  | group _ _ ih => exact ih

theorem IsNest.exists_style (h : top.IsNest nest) :
    ∀ list ∈ nest, ∃ prelude body, PartOf (.style prelude list body) top := by
  obtain ⟨outer, prelude, list, body, hnested, rfl⟩ := h
  exact List.forall_mem_append.mpr
    ⟨hnested.exists_style, List.forall_mem_singleton.mpr ⟨prelude, body, hnested.partOf⟩⟩

mutual

/-- The selector lists of the style rules in an entry. -/
def selectorLists : Entry → List SelectorList
  | .style _ list body => list :: selectorListsOf body
  | .group _ _ _ body _ => selectorListsOf body
  | .keyframe _ _ body _ => selectorListsOf body
  | _ => []

/-- The selector lists of the style rules in a body. -/
def selectorListsOf : List Entry → List SelectorList
  | [] => []
  | e :: rest => selectorLists e ++ selectorListsOf rest

end

theorem mem_selectorListsOf {list : SelectorList} {body : List Entry} :
    list ∈ selectorListsOf body ↔ ∃ e ∈ body, list ∈ e.selectorLists := by
  induction body with
  | nil => simp [selectorListsOf]
  | cons e rest ih => rw [selectorListsOf, List.mem_append, ih, List.exists_mem_cons_iff]

theorem mem_selectorLists {prelude : List Value} {list : SelectorList} {body : List Entry}
    (h : PartOf (.style prelude list body) top) :
    list ∈ top.selectorLists := by
  induction h with
  | self => simp [selectorLists]
  | @inside x y _ hmem ih =>
      have hbody : list ∈ selectorListsOf y.body := mem_selectorListsOf.mpr ⟨x, hmem, ih⟩
      cases y with
      | style => exact List.mem_cons_of_mem _ hbody
      | group | keyframe => exact hbody
      | _ => cases hmem

end Entry

/-! ## What flat rules stand under -/

namespace Output

mutual

/-- What the declarations of a flat rule stand under. -/
def Flat.heads : Flat → List (List Char)
  | .rule head _ => [head]
  | .group _ body => headsOf body
  | _ => []

/-- What the declarations of flat rules stand under. -/
def headsOf : List Flat → List (List Char)
  | [] => []
  | flat :: rest => flat.heads ++ headsOf rest

end

theorem headsOf_append (xs ys : List Flat) :
    headsOf (xs ++ ys) = headsOf xs ++ headsOf ys := by
  induction xs with
  | nil => rfl
  | cons flat rest ih => rw [List.cons_append, headsOf, headsOf, ih, List.append_assoc]

/-- The text is the prelude of a keyframe, or it is given by a nest of style rules. -/
def IsHead (minify : Bool) (top : Entry) (head : List Char) : Prop :=
  (∃ prelude opener body closer, Entry.PartOf (.keyframe prelude opener body closer) top ∧
    head = valuesText minify prelude) ∨
  ∃ nest, top.IsNest nest ∧ head = joinSelectors minify (nest.foldl (resolveSelectors minify) [])

variable {minify : Bool} {head : List Char}

/-- The flat rules of a body are those of the rules in it. -/
theorem exists_flatten_of_mem {parents : List (List Char)} {body : List Entry} {flats : List Flat}
    (h : flattenRules minify parents body = .ok flats) {flat : Flat}
    (hflat : flat ∈ flats) :
    ∃ e ∈ body, ∃ laid, flatten minify parents e = .ok laid ∧ flat ∈ laid := by
  induction body generalizing flats with
  | nil =>
      rw [flattenRules] at h
      cases h
      cases hflat
  | cons e rest ih =>
      have hlater {flats : List Flat} (h : flattenRules minify parents rest = .ok flats)
          (hflat : flat ∈ flats) :=
        (ih h hflat).imp fun x hx => And.imp_left (List.mem_cons_of_mem e) hx
      cases hdecl : e.isDeclaration with
      | true =>
          cases e with
          | declaration d =>
              rw [flattenRules] at h
              exact hlater h hflat
          | _ => cases hdecl
      | false =>
          rw [flattenRules_cons hdecl] at h
          obtain ⟨first, hfirst, h⟩ := Outcome.ok_of_bind h
          obtain ⟨others, hothers, h⟩ := Outcome.ok_of_bind h
          cases h
          rcases List.mem_append.mp hflat with hflat | hflat
          · exact ⟨e, List.mem_cons_self, first, hfirst, hflat⟩
          · exact hlater hothers hflat

/-- Those of a body at the top level are those of the rules in it and runs of its declarations. -/
theorem exists_flatten_of_mem_body {run : List Declaration} {body : List Entry} {flats : List Flat}
    (h : flattenBody minify run body = .ok flats) {flat : Flat} (hflat : flat ∈ flats) :
    (∃ decls last, flat = .declarations decls last ∧
      ∀ d ∈ decls, d ∈ run ∨ .declaration d ∈ body) ∨
    ∃ e ∈ body, ∃ laid, flatten minify [] e = .ok laid ∧ flat ∈ laid := by
  -- The run so far, if there is one, comes before the rules behind it.
  have hrun {run : List Declaration} {last : Bool}
      (hflat : flat ∈ if run.isEmpty then [] else [Flat.declarations run.reverse last]) :
      ∃ decls last, flat = .declarations decls last ∧ ∀ d ∈ decls, d ∈ run := by
    split at hflat
    · cases hflat
    · exact ⟨_, _, List.mem_singleton.mp hflat, fun d hd => List.mem_reverse.mp hd⟩
  induction body generalizing run flats with
  | nil =>
      rw [flattenBody] at h
      cases h
      obtain ⟨decls, last, hflat, hdecls⟩ := hrun hflat
      exact .inl ⟨decls, last, hflat, fun d hd => .inl (hdecls d hd)⟩
  | cons e rest ih =>
      have hbehind {x : Entry} (hx : x ∈ rest) : x ∈ e :: rest := List.mem_cons_of_mem e hx
      have hlater (hfound : ∃ x ∈ rest, ∃ laid, flatten minify [] x = .ok laid ∧ flat ∈ laid) :=
        hfound.imp fun x => And.imp_left hbehind
      cases hdecl : e.isDeclaration with
      | true =>
          cases e with
          | declaration d =>
              rw [flattenBody] at h
              refine (ih h hflat).imp ?_ hlater
              rintro ⟨decls, last, hflat, hdecls⟩
              refine ⟨decls, last, hflat, fun d' hd => ?_⟩
              rcases hdecls d' hd with hd | hd
              · rcases List.mem_cons.mp hd with rfl | hd
                · exact .inr List.mem_cons_self
                · exact .inl hd
              · exact .inr (hbehind hd)
          | _ => cases hdecl
      | false =>
          rw [flattenBody_cons hdecl] at h
          obtain ⟨first, hfirst, h⟩ := Outcome.ok_of_bind h
          obtain ⟨others, hothers, h⟩ := Outcome.ok_of_bind h
          cases h
          rcases List.mem_append.mp hflat with hflat | hflat
          · rcases List.mem_append.mp hflat with hflat | hflat
            · obtain ⟨decls, last, hflat, hdecls⟩ := hrun hflat
              exact .inl ⟨decls, last, hflat, fun d hd => .inl (hdecls d hd)⟩
            · exact .inr ⟨e, List.mem_cons_self, first, hfirst, hflat⟩
          · refine (ih hothers hflat).imp ?_ hlater
            rintro ⟨decls, last, hflat, hdecls⟩
            refine ⟨decls, last, hflat, fun d hd => .inr (hbehind ?_)⟩
            exact (hdecls d hd).resolve_left List.not_mem_nil

theorem mem_headsOf {flats : List Flat} :
    head ∈ headsOf flats ↔ ∃ flat ∈ flats, head ∈ flat.heads := by
  induction flats with
  | nil => simp [headsOf]
  | cons flat rest ih => simp [headsOf, ih]

theorem exists_of_mem_flattenRules {parents : List (List Char)} {body : List Entry}
    {flats : List Flat} (h : flattenRules minify parents body = .ok flats) (hhead : head ∈ headsOf flats) :
    ∃ e ∈ body, ∃ laid, flatten minify parents e = .ok laid ∧ head ∈ headsOf laid := by
  obtain ⟨flat, hflat, hhead⟩ := mem_headsOf.mp hhead
  obtain ⟨e, he, laid, hlaid, hflat⟩ := exists_flatten_of_mem h hflat
  exact ⟨e, he, laid, hlaid, mem_headsOf.mpr ⟨flat, hflat, hhead⟩⟩

theorem exists_of_mem_flattenBody {run : List Declaration} {body : List Entry} {flats : List Flat}
    (h : flattenBody minify run body = .ok flats) (hhead : head ∈ headsOf flats) :
    ∃ e ∈ body, ∃ laid, flatten minify [] e = .ok laid ∧ head ∈ headsOf laid := by
  obtain ⟨flat, hflat, hhead⟩ := mem_headsOf.mp hhead
  rcases exists_flatten_of_mem_body h hflat with ⟨decls, last, rfl, -⟩ | ⟨e, he, laid, hlaid, hflat⟩
  · -- A run of declarations stands under nothing.
    cases hhead
  · exact ⟨e, he, laid, hlaid, mem_headsOf.mpr ⟨flat, hflat, hhead⟩⟩

/-- The selectors of a rule inside the rules of a nest. -/
theorem foldl_resolveSelectors_concat (nest : List SelectorList) (list : SelectorList) :
    (nest ++ [list]).foldl (resolveSelectors minify) [] =
      resolveSelectors minify (nest.foldl (resolveSelectors minify) []) list := by
  rw [List.foldl_append, List.foldl_cons, List.foldl_nil]

/-- Whatever flat rules of an entry stand under is a prelude of a keyframe or given by a nest. -/
theorem heads_flatten {top e : Entry} {nest : List SelectorList} (hnested : top.Nested nest e)
    {flats : List Flat} (h : flatten minify (nest.foldl (resolveSelectors minify) []) e = .ok flats)
    (hhead : head ∈ headsOf flats) :
    IsHead minify top head := by
  induction e using Entry.induction_body generalizing nest flats with
  | h e ih =>
      cases e with
      | style prelude list body =>
          rw [flatten, ← foldl_resolveSelectors_concat] at h
          cases hmisplaced : misplacedInStyle? body with
          | some x =>
              rw [hmisplaced] at h
              cases h
          | none =>
              rw [hmisplaced] at h
              obtain ⟨nested, hnestedRules, h⟩ := Outcome.ok_of_bind h
              have hinside (hhead : head ∈ headsOf nested) : IsHead minify top head := by
                obtain ⟨x, hx, laid, hlaid, hhead⟩ := exists_of_mem_flattenRules hnestedRules hhead
                exact ih x hx (hnested.style hx) hlaid hhead
              split at h
              · cases h
                exact hinside hhead
              · cases h
                rcases List.mem_cons.mp hhead with rfl | hhead
                · exact .inr ⟨_, ⟨nest, prelude, list, body, hnested, rfl⟩, rfl⟩
                · exact hinside hhead
      | statement name prelude =>
          rw [flatten] at h
          cases h
          cases hhead
      | group name prelude opener body closer =>
          rw [flatten] at h
          cases hparents : (nest.foldl (resolveSelectors minify) []).isEmpty with
          | true =>
              rw [hparents, if_pos rfl] at h
              obtain ⟨laid, hbody, h⟩ := Outcome.ok_of_bind h
              cases h
              rw [headsOf, headsOf, List.append_nil, Flat.heads] at hhead
              obtain ⟨x, hx, laid, hlaid, hhead⟩ := exists_of_mem_flattenBody hbody hhead
              rw [← List.isEmpty_iff.mp hparents] at hlaid
              exact ih x hx (hnested.group hx) hlaid hhead
          | false =>
              rw [hparents, if_neg (by simp)] at h
              obtain ⟨nested, hnestedRules, h⟩ := Outcome.ok_of_bind h
              cases h
              rw [headsOf, headsOf, List.append_nil, Flat.heads, headsOf_append] at hhead
              rcases List.mem_append.mp hhead with hhead | hhead
              · -- Declarations in an at-rule stand under the style rule around it.
                have hnest : top.IsNest nest := by
                  refine hnested.eq_nil_or_isNest.resolve_left ?_
                  rintro rfl
                  cases hparents
                split at hhead
                · cases hhead
                · obtain rfl := List.mem_singleton.mp hhead
                  exact .inr ⟨nest, hnest, rfl⟩
              · obtain ⟨x, hx, laid, hlaid, hhead⟩ := exists_of_mem_flattenRules hnestedRules hhead
                exact ih x hx (hnested.group hx) hlaid hhead
      | keyframe prelude opener body closer =>
          rw [flatten] at h
          cases hmisplaced : misplacedInKeyframe? body with
          | some x =>
              rw [hmisplaced] at h
              cases h
          | none =>
              rw [hmisplaced] at h
              cases h
              obtain rfl := List.mem_singleton.mp hhead
              exact .inl ⟨prelude, opener, body, closer, hnested.partOf, rfl⟩
      | declaration | loose =>
          rw [flatten] at h
          · cases h
          all_goals
            intros
            contradiction

theorem exists_flatten_of_mem_flattened {rules : List Entry} {flats : List (List Flat)}
    (h : rules.mapM (flatten minify []) = .ok flats) {flat : Flat} (hflat : flat ∈ flats.flatten) :
    ∃ top ∈ rules, ∃ laid, flatten minify [] top = .ok laid ∧ flat ∈ laid := by
  obtain ⟨laid, hlaid, hflat⟩ := List.mem_flatten.mp hflat
  obtain ⟨top, htop, hfound⟩ := Outcome.exists_of_mem_mapM h hlaid
  exact ⟨top, htop, laid, hfound, hflat⟩

theorem exists_of_mem_flattened {rules : List Entry} {flats : List (List Flat)}
    (h : rules.mapM (flatten minify []) = .ok flats) (hhead : head ∈ headsOf flats.flatten) :
    ∃ top ∈ rules, IsHead minify top head := by
  obtain ⟨flat, hflat, hhead⟩ := mem_headsOf.mp hhead
  obtain ⟨top, htop, laid, hlaid, hflat⟩ := exists_flatten_of_mem_flattened h hflat
  exact ⟨top, htop, heads_flatten .top hlaid (mem_headsOf.mpr ⟨flat, hflat, hhead⟩)⟩

end Output

/-! ## Stylesheets -/

theorem aliasClosed_writable :
    AliasClosed Token.Writable := by
  constructor <;> rintro t - ⟨⟩

namespace Sheet

open Output

/-- The selectors of a nest give the text of a rule, and a reference to a parent is left in it iff one
stands in an argument. -/
theorem refers_nest_iff {minify : Bool} {top : Entry} (hfaithful : top.Faithful Token.Writable)
    (hlegible : ∀ list ∈ top.selectorLists, ∀ s ∈ list, s.Legible minify)
    {nest : List SelectorList} (hnest : top.IsNest nest) :
    Refers (tokenize (String.ofList
        (joinSelectors minify (nest.foldl (resolveSelectors minify) [])))) ↔
      ∃ list ∈ nest, ∃ s ∈ list, s.RefersInside minify := by
  have hstyle := hnest.exists_style
  have hne : ∀ list ∈ nest, list ≠ [] := by
    intro list hlist
    obtain ⟨prelude, body, hpart⟩ := hstyle list hlist
    exact Selector.ne_nil_of_parse (hfaithful prelude list body hpart).2
  have hclear : ∀ list ∈ nest, ∀ s ∈ list, s.Clear minify := by
    intro list hlist s hs
    obtain ⟨prelude, body, hpart⟩ := hstyle list hlist
    obtain ⟨hsound, hparse⟩ := hfaithful prelude list body hpart
    have hread := forall_readFrom_list (Selector.parse_eq_ok_iff.mp hparse) fun v hv =>
      (hsound v hv).tokens
    exact ⟨hread s hs, hlegible list (Entry.mem_selectorLists hpart) s hs⟩
  refine refers_tokenize_joined_iff ?_ hne hclear
  obtain ⟨outer, prelude, list, body, -, rfl⟩ := hnest
  have hresolved := resolveSelectors_list_ne_nil (hne list (by simp)) minify
    (outer.foldl (resolveSelectors minify) [])
  rw [← foldl_resolveSelectors_concat, (resolveAll_eq hclear).2] at hresolved
  exact fun hnil => hresolved (by rw [hnil]; rfl)

/-- The rules of a stylesheet that has been read stand under preludes of keyframes or under what nests
of style rules give.  Where all arguments of pseudo-classes are legible, a reference to a parent is
left in the selectors of a rule, read as tokens, iff an argument in one of the selectors of its nest
holds one. -/
theorem written_references {budget : Nat} {limits : Limits} {file source : String} {sheet : Sheet}
    (h : (parseTokens budget limits file (tokenize source)).1 = .ok sheet) {style : Style}
    {text : String} (htext : formatRules style sheet.rules = .ok text)
    (hlegible : ∀ top ∈ sheet.rules, ∀ list ∈ top.selectorLists, ∀ s ∈ list, s.Legible style.minify) :
    ∃ flats : List (List Flat), sheet.rules.mapM (flatten style.minify []) = .ok flats ∧
      text = String.ofList (sheetText style flats.flatten) ∧
      ∀ head ∈ headsOf flats.flatten, ∃ top ∈ sheet.rules,
        (∃ prelude opener body closer, Entry.PartOf (.keyframe prelude opener body closer) top ∧
          head = valuesText style.minify prelude) ∨
        ∃ nest, top.IsNest nest ∧
          head = joinSelectors style.minify (nest.foldl (resolveSelectors style.minify) []) ∧
          (Refers (tokenize (String.ofList head)) ↔
            ∃ list ∈ nest, ∃ s ∈ list, s.RefersInside style.minify) := by
  have hfaithful := faithful_of_ok aliasClosed_writable readable_of_mem_tokenize
    (Lexer.exists_eof source) h
  unfold formatRules at htext
  cases hflats : sheet.rules.mapM (flatten style.minify []) with
  | error m =>
      rw [hflats] at htext
      cases htext
  | ok flats =>
      rw [hflats] at htext
      cases htext
      refine ⟨flats, rfl, rfl, fun head hhead => ?_⟩
      obtain ⟨top, htop, hframe | ⟨nest, hnest, rfl⟩⟩ := exists_of_mem_flattened hflats hhead
      · exact ⟨top, htop, .inl hframe⟩
      · exact ⟨top, htop, .inr ⟨nest, hnest, rfl,
          refers_nest_iff (hfaithful top htop) (hlegible top htop) hnest⟩⟩

/-- A reference to the parent in the argument of a pseudo-class. -/
def referenceInArgument : String :=
  "a\x7b&:not(&.b)\x7bc:d\x7d\x7d"

theorem written_references_inArgument :
    ∃ sheet text, (parse {} "" referenceInArgument).1 = .ok sheet ∧
      formatRules {} sheet.rules = .ok text ∧
      ∃ flats : List (List Flat), text = String.ofList (sheetText {} flats.flatten) ∧
        headsOf flats.flatten = ["a:not(&.b)".toList] ∧
        ∀ head ∈ headsOf flats.flatten, ∃ top ∈ sheet.rules,
          (∃ prelude opener body closer, Entry.PartOf (.keyframe prelude opener body closer) top ∧
            head = valuesText false prelude) ∨
          ∃ nest, top.IsNest nest ∧
            head = joinSelectors false (nest.foldl (resolveSelectors false) []) ∧
            (Refers (tokenize (String.ofList head)) ↔
              ∃ list ∈ nest, ∃ s ∈ list, s.RefersInside false) := by
  have hok : (parse {} "" referenceInArgument).1.toOption.any (fun sheet =>
      (formatRules {} sheet.rules).isOk &&
        (sheet.rules.mapM (flatten false [])).toOption.any (fun flats =>
          headsOf flats.flatten == ["a:not(&.b)".toList]) &&
        sheet.rules.all fun top => top.selectorLists.all fun list => list.all fun s =>
          s.pseudoClasses.all (PseudoClass.isPlain false)) = true := by
    decide +kernel
  obtain ⟨sheet, h, hsheet⟩ := exists_ok_of_any hok
  rw [Bool.and_eq_true, Bool.and_eq_true] at hsheet
  obtain ⟨⟨hformat, hheads⟩, hplain⟩ := hsheet
  simp only [List.all_eq_true] at hplain
  cases htext : formatRules {} sheet.rules with
  | error m =>
      rw [htext] at hformat
      cases hformat
  | ok text =>
      obtain ⟨flats, hflats, hsheet, hreferences⟩ := written_references h htext
        fun top htop list hlist s hs p hp => legible_of_isPlain (hplain top htop list hlist s hs p hp)
      rw [hflats] at hheads
      exact ⟨sheet, text, h, htext, flats, hsheet, beq_iff_eq.mp hheads, hreferences⟩

/-- A reference in an argument is written as it stands: the rule is under a selector with an
ampersand. -/
theorem reference_left_in_argument :
    ∃ sheet, (parse {} "" referenceInArgument).1 = .ok sheet ∧
      formatRules {} sheet.rules = .ok "a:not(&.b) \x7b\n  c: d;\n\x7d\n" ∧
      ∃ t ∈ tokenize "a:not(&.b) \x7b\n  c: d;\n\x7d\n", t.isDelim "&" = true := by
  have hok : (parse {} "" referenceInArgument).1.toOption.any (fun sheet =>
      (formatRules {} sheet.rules).toOption == some "a:not(&.b) \x7b\n  c: d;\n\x7d\n") = true := by
    decide +kernel
  obtain ⟨sheet, h, htext⟩ := exists_ok_of_any hok
  rw [beq_iff_eq] at htext
  refine ⟨sheet, h, ?_, by decide +kernel⟩
  cases hformat : formatRules {} sheet.rules with
  | error m =>
      rw [hformat] at htext
      cases htext
  | ok text =>
      rw [hformat] at htext
      cases htext
      rfl

end Sheet
end Cascade
