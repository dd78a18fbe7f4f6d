import Cascade.Proofs.PlainArguments
import Cascade.Proofs.SelectorValues
import Cascade.Proofs.Spacing

/-!
# Both forms of a selector list

The pretty and the short form of a selector list that has been read are parsed to its
tree.  The arguments of pseudo-classes are the same in both forms up to the spelling of
numbers and the spaces that the short form leaves out, which are those of descendant
combinators, too.

**Method.**  Plain arguments can be written in both forms (`Proofs.PlainArguments`); they
stand somewhere among the values that a selector is written by (`Within`).  The tree
without its arguments is compared by `outline`, the arguments in their order by
`arguments`.

**Results.**
* `Selector.parseText_forms`: both forms are parsed, to the outline of the list.
* `descendant_lost_in_argument`: the arguments may select something else.
-/

namespace Cascade
open Lexer Output

/-! ## Where the pseudo-classes of a selector stand -/

/-- The part is written by values that stand together among the others. -/
def Within {α : Type} (W : α → List Value → Prop) (a : α) (vs : List Value) : Prop :=
  ∃ us, W a us ∧ us <:+: vs

section Parts

variable {us vs : List Value}

theorem Within.mono {α : Type} {W : α → List Value → Prop} {a : α} (h : Within W a us)
    (hus : us <:+: vs) :
    Within W a vs := by
  obtain ⟨ws, ha, hws⟩ := h
  exact ⟨ws, ha, hws.trans hus⟩

theorem WrittenAll.within {α : Type} {W : α → List Value → Prop} {as : List α}
    (h : WrittenAll W as vs) :
    ∀ a ∈ as, Within W a vs := by
  induction h with
  | nil => exact List.forall_mem_nil _
  | cons ha _ ih =>
      refine List.forall_mem_cons.mpr ⟨⟨_, ha, List.infix_append_left⟩, fun b hb => ?_⟩
      exact (ih b hb).mono List.infix_append_right

theorem Subclass.WrittenAs.within {s : Subclass} (h : s.WrittenAs vs) :
    ∀ p ∈ s.pseudoClasses, Within PseudoClass.WrittenAs p vs := by
  cases h with
  | pseudo hp => exact List.forall_mem_singleton.mpr ⟨_, hp, List.infix_rfl⟩
  | _ => exact List.forall_mem_nil _

theorem PseudoElement.WrittenAs.within {e : PseudoElement} (h : e.WrittenAs vs) :
    ∀ p ∈ e.element :: e.classes, Within PseudoClass.WrittenAs p vs := by
  cases h with
  | intro _ helement hclasses =>
      refine List.forall_mem_cons.mpr ⟨⟨_, helement, ?_⟩, fun p hp => ?_⟩
      · exact List.infix_cons List.infix_append_left
      · exact (hclasses.within p hp).mono (List.infix_cons List.infix_append_right)

theorem Compound.WrittenAs.within {c : Compound} (h : c.WrittenAs vs) :
    ∀ p ∈ c.pseudoClasses, Within PseudoClass.WrittenAs p vs := by
  cases h with
  | intro _ hconditions hpseudos _ =>
      intro p hp
      rcases List.mem_append.mp hp with hp | hp
      · obtain ⟨s, hs, hp⟩ := List.mem_flatMap.mp hp
        obtain ⟨us, hwritten, hus⟩ := hconditions.within s hs
        exact (hwritten.within p hp).mono (hus.trans (List.infix_append' _ _ _))
      · obtain ⟨e, he, hp⟩ := List.mem_flatMap.mp hp
        obtain ⟨us, hwritten, hus⟩ := hpseudos.within e he
        refine (hwritten.within p hp).mono (hus.trans ?_)
        exact List.infix_append_right.trans List.infix_append_right

theorem ComplexSelector.WrittenAs.within {s : ComplexSelector} (h : s.WrittenAs vs) :
    ∀ p ∈ s.pseudoClasses, Within PseudoClass.WrittenAs p vs := by
  cases h with
  | intro hfirst hothers =>
      intro p hp
      obtain ⟨part, hpart, hp⟩ := List.mem_flatMap.mp hp
      rcases List.mem_cons.mp hpart with rfl | hpart
      · exact (hfirst.within p hp).mono List.infix_append_left
      · obtain ⟨us, hwritten, hus⟩ := hothers.within part hpart
        cases hwritten with
        | intro _ hcompound =>
            refine (hcompound.within p hp).mono (List.infix_append_right.trans (hus.trans ?_))
            exact List.infix_append_right

theorem SelectorList.WrittenAs.within {list : SelectorList} (h : list.WrittenAs vs) :
    ∀ s ∈ list, Within ComplexSelector.WrittenAs s vs := by
  induction h with
  | single _ hs _ => exact List.forall_mem_singleton.mpr ⟨_, hs, List.infix_append' _ _ _⟩
  | cons _ hs _ _ _ ih =>
      refine List.forall_mem_cons.mpr ⟨⟨_, hs, List.infix_append' _ _ _⟩, fun s hs => (ih s hs).mono ?_⟩
      exact (List.infix_cons List.infix_rfl).trans (List.infix_append_right.trans
        (List.infix_append_right.trans List.infix_append_right))

end Parts

/-! ## Outlines and arguments -/

/-- The selectors without places and without what stands in the arguments. -/
def SelectorList.outline (list : SelectorList) : SelectorList :=
  list.unplaced fun _ => []

/-- The arguments of the pseudo-classes in the selectors. -/
def SelectorList.arguments (list : SelectorList) : List (List Value) :=
  (list.flatMap ComplexSelector.pseudoClasses).filterMap PseudoClass.argument

section Trees

variable (f g : List Value → List Value)

theorem Token.unplaced_comp :
    Token.unplaced ∘ Token.unplaced = Token.unplaced := by
  rfl

theorem Qualifier.unplaced_comp :
    Qualifier.unplaced ∘ Qualifier.unplaced = Qualifier.unplaced := by
  funext q
  rw [Function.comp_apply, Qualifier.unplaced, Qualifier.unplaced, Option.map_map, Token.unplaced_comp]
  rfl

theorem Matcher.unplaced_comp :
    Matcher.unplaced ∘ Matcher.unplaced = Matcher.unplaced := by
  funext m
  rw [Function.comp_apply, Matcher.unplaced, Matcher.unplaced, Option.map_map, Token.unplaced_comp]
  rfl

theorem TypeSelector.unplaced_comp :
    TypeSelector.unplaced ∘ TypeSelector.unplaced = TypeSelector.unplaced := by
  funext t
  cases t <;> simp [TypeSelector.unplaced, Qualifier.unplaced_comp] <;> rfl

theorem PseudoClass.unplaced_unplaced (p : PseudoClass) :
    (p.unplaced f).unplaced g = p.unplaced (g ∘ f) := by
  simp [PseudoClass.unplaced, Token.unplaced, Function.comp_def]

theorem Attribute.unplaced_unplaced (a : Attribute) :
    a.unplaced.unplaced = a.unplaced := by
  simp only [Attribute.unplaced, Option.map_map, Qualifier.unplaced_comp, Matcher.unplaced_comp,
    Token.unplaced_comp]
  rfl

theorem Subclass.unplaced_unplaced (s : Subclass) :
    (s.unplaced f).unplaced g = s.unplaced (g ∘ f) := by
  cases s with
  | attr a => exact congrArg Subclass.attr a.unplaced_unplaced
  | pseudo p => exact congrArg Subclass.pseudo (p.unplaced_unplaced f g)
  | _ => rfl

theorem PseudoElement.unplaced_unplaced (e : PseudoElement) :
    (e.unplaced f).unplaced g = e.unplaced (g ∘ f) := by
  simp [PseudoElement.unplaced, PseudoClass.unplaced_unplaced, Token.unplaced]

theorem Compound.unplaced_unplaced (c : Compound) :
    (c.unplaced f).unplaced g = c.unplaced (g ∘ f) := by
  simp [Compound.unplaced, TypeSelector.unplaced_comp, Subclass.unplaced_unplaced,
    PseudoElement.unplaced_unplaced]

theorem SelectorPart.unplaced_unplaced (p : SelectorPart) :
    (p.unplaced f).unplaced g = p.unplaced (g ∘ f) := by
  simp [SelectorPart.unplaced, Compound.unplaced_unplaced, Token.unplaced]

theorem SelectorList.unplaced_unplaced (list : SelectorList) :
    (list.unplaced f).unplaced g = list.unplaced (g ∘ f) := by
  simp [SelectorList.unplaced, ComplexSelector.unplaced, SelectorPart.unplaced_unplaced]

theorem Compound.pseudoClasses_unplaced (c : Compound) :
    (c.unplaced f).pseudoClasses = c.pseudoClasses.map (PseudoClass.unplaced f) := by
  have hcondition (s : Subclass) :
      (s.unplaced f).pseudoClasses = s.pseudoClasses.map (PseudoClass.unplaced f) := by
    cases s <;> rfl
  simp [Compound.pseudoClasses, Compound.unplaced, PseudoElement.unplaced, List.flatMap_map,
    List.map_flatMap, hcondition]

theorem SelectorList.arguments_unplaced (list : SelectorList) :
    (list.unplaced f).arguments = list.arguments.map f := by
  have hpseudoClasses : (list.unplaced f).flatMap ComplexSelector.pseudoClasses =
      (list.flatMap ComplexSelector.pseudoClasses).map (PseudoClass.unplaced f) := by
    simp [SelectorList.unplaced, ComplexSelector.unplaced, ComplexSelector.pseudoClasses,
      SelectorPart.unplaced, Compound.pseudoClasses_unplaced, List.flatMap_map, List.map_flatMap]
  rw [SelectorList.arguments, hpseudoClasses, List.filterMap_map, SelectorList.arguments,
    List.map_filterMap]
  rfl

end Trees

/-! ## The same arguments in both forms -/

section Forms

variable {minify : Bool} {name : Token} {ts : List Token}

theorem unplaced_inForm (t : Token) :
    (t.inForm minify).unplaced = t.inForm minify := by
  cases minify with
  | true => exact unplaced_shortened t
  | false => rfl

theorem Writes.rereadArgument (h : Writes minify name ts) :
    rereadArgument minify (ts.map .token) = (shownTokens minify ts).map .token := by
  have hshown : (shownTokens minify ts).map Token.unplaced = shownTokens minify ts := by
    rw [shownTokens, List.map_map]
    exact List.map_congr_left fun t _ => unplaced_inForm t
  have hsame : (writtenArgument minify (ts.map .token)).map Token.unplaced =
      (shownTokens minify ts).map Token.unplaced := h.sameTokens
  rw [hshown] at hsame
  rw [← hsame, Cascade.rereadArgument, List.map_map]
  rfl

theorem respelled_inForm {t : Token} (h : t.spaced.Readable) :
    Token.Respelled (t.inForm false) (t.inForm true) := by
  cases ht : t.isWhitespace with
  | true =>
      rw [Token.inForm_of_blank h ht, Token.inForm_of_blank h ht]
      exact .same _
  | false =>
      have hshort := ((Token.readable_of_spaced h ht).shortened ht).2
      rwa [← Token.spaced_of_visible ht] at hshort

/-- The values are tokens: the second ones are the first ones without the spaces that the short form
leaves out, up to the spelling of numbers. -/
def Shortens (us vs : List Value) : Prop :=
  ∃ ts ts' : List Token, us = ts.map .token ∧ vs = ts'.map .token ∧
    List.Forall₂ Token.Respelled (writtenAfter true none ts) ts'

/-- Up to places the second argument is the first one in its short form. -/
def SameArgument (us vs : List Value) : Prop :=
  Shortens (us.map Value.unplaced) (vs.map Value.unplaced)

theorem respelled_shownTokens (h : ∀ t ∈ ts, t.spaced.Readable) :
    List.Forall₂ Token.Respelled (writtenAfter true none (shownTokens false ts))
      (shownTokens true ts) := by
  have hwritten := writtenAfter_map (inForm_type false) true none (writtenAfter false none ts)
  rw [Option.map_none, writtenAfter_short_pretty] at hwritten
  rw [shownTokens, hwritten, shownTokens, List.forall₂_map_left_iff, List.forall₂_map_right_iff,
    List.forall₂_same]
  exact fun t ht => respelled_inForm (h t ((writtenAfter_sublist _ _ _).subset ht))

theorem PseudoClass.Spelled.shortens {p : PseudoClass} (hpretty : p.Spelled false)
    (hshort : p.Spelled true) :
    ∀ vs ∈ p.argument, Shortens (Cascade.rereadArgument false vs) (Cascade.rereadArgument true vs) := by
  intro vs hvs
  obtain ⟨ts, rfl, -, -, hwrites⟩ := hpretty vs hvs
  obtain ⟨ts', hts', -, -, hwritesShort⟩ := hshort _ hvs
  obtain rfl := List.map_injective_iff.mpr (fun _ _ => Value.token.inj) hts'
  exact ⟨_, _, hwrites.rereadArgument, hwritesShort.rereadArgument, respelled_shownTokens hwrites.readable⟩

/-- Up to places, the spelling of numbers, and spaces beside commas and at both ends, the arguments are
the same. -/
def Agree (us vs : List Value) : Prop :=
  ∃ ts ts' : List Token, us.map Value.unplaced = ts.map .token ∧
    vs.map Value.unplaced = ts'.map .token ∧
    List.Forall₂ Token.Respelled (spacedBy apartFromCommas none ts)
      (spacedBy apartFromCommas none ts')

/-- The short form needs each space in the argument that stands between two tokens which are no
commas. -/
def SpacesNeeded (us : List Value) : Prop :=
  ∀ ts : List Token, us.map Value.unplaced = ts.map .token →
    ∀ p ∈ spacedPairs none ts, apartFromCommas p.1 p.2 = true → needsBetween p.1 p.2 = true

theorem agree_iff {us vs : List Value} (h : SameArgument us vs) :
    Agree us vs ↔ SpacesNeeded us := by
  obtain ⟨ts, ts', hus, hvs, hshort⟩ := h
  have hinj {ts₁ ts₂ : List Token} (heq : ts₁.map Value.token = ts₂.map Value.token) : ts₁ = ts₂ :=
    List.map_injective_iff.mpr (fun _ _ => Value.token.inj) heq
  constructor
  · rintro ⟨us', vs', hus', hvs', hagree⟩
    obtain rfl := hinj (hus.symm.trans hus')
    obtain rfl := hinj (hvs.symm.trans hvs')
    intro ts₁ hts₁
    obtain rfl := hinj (hus.symm.trans hts₁)
    exact (respelled_spacedBy_iff hshort).mp hagree
  · intro hneeded
    exact ⟨ts, ts', hus, hvs, (respelled_spacedBy_iff hshort).mpr (hneeded ts hus)⟩

theorem forall₂_agree_iff {uss vss : List (List Value)} (h : List.Forall₂ SameArgument uss vss) :
    List.Forall₂ Agree uss vss ↔ ∀ us ∈ uss, SpacesNeeded us := by
  induction h with
  | nil => simp
  | cons hsame _ ih => rw [List.forall₂_cons, agree_iff hsame, ih, List.forall_mem_cons]

variable {list list' pretty short : SelectorList}

theorem outline_of_unplaced {f g : List Value → List Value} (h : list'.unplaced f = list.unplaced g) :
    list'.outline = list.outline := by
  have houtline := congrArg (SelectorList.unplaced fun _ => []) h
  rwa [SelectorList.unplaced_unplaced, SelectorList.unplaced_unplaced] at houtline

theorem sameArguments_of_unplaced
    (hpretty : pretty.unplaced (List.map Value.unplaced) = list.unplaced (rereadArgument false))
    (hshort : short.unplaced (List.map Value.unplaced) = list.unplaced (rereadArgument true))
    (h : ∀ s ∈ list, ∀ p ∈ s.pseudoClasses, ∀ minify, p.Spelled minify) :
    List.Forall₂ SameArgument pretty.arguments short.arguments := by
  have harguments : List.Forall₂ Shortens (pretty.arguments.map (List.map Value.unplaced))
      (short.arguments.map (List.map Value.unplaced)) := by
    rw [← SelectorList.arguments_unplaced, hpretty, ← SelectorList.arguments_unplaced, hshort,
      SelectorList.arguments_unplaced, SelectorList.arguments_unplaced, List.forall₂_map_left_iff,
      List.forall₂_map_right_iff, List.forall₂_same]
    intro vs hvs
    obtain ⟨p, hp, hargument⟩ := List.mem_filterMap.mp hvs
    obtain ⟨s, hs, hp⟩ := List.mem_flatMap.mp hp
    exact (h s hs p hp false).shortens (h s hs p hp true) vs hargument
  rwa [List.forall₂_map_left_iff, List.forall₂_map_right_iff] at harguments

end Forms

/-! ## Both forms are read back -/

namespace Selector

/-- The pretty and the short form of a selector list that has been read are parsed to its tree, if the
source has no comments, no backslashes and no malformed strings and addresses in the arguments of
pseudo-classes, if numbers in the short forms of arguments end before their neighbours, and if no name
consists of two hyphens.  The arguments in the short form have lost the spaces it leaves out; so the
arguments agree iff no space that it leaves out stands between two tokens which are no commas. -/
theorem parseText_forms {source : String} {list : SelectorList} (h : parseText source = .ok list)
    (hplain : list.PlainArguments source) (hapart : list.NumbersApart)
    (hhyphens : list.HyphensApart) :
    ∃ pretty short, parseText (selectorsText false list) = .ok pretty ∧
      parseText (selectorsText true list) = .ok short ∧
      pretty.outline = list.outline ∧ short.outline = list.outline ∧
      List.Forall₂ SameArgument pretty.arguments short.arguments ∧
      (List.Forall₂ Agree pretty.arguments short.arguments ↔
        ∀ us ∈ pretty.arguments, SpacesNeeded us) := by
  have hwritten := parse_eq_ok_iff.mp h
  have hspelled : ∀ s ∈ list, ∀ p ∈ s.pseudoClasses, ∀ minify, p.Spelled minify := by
    intro s hs p hp minify
    obtain ⟨us, hselector, hus⟩ := hwritten.within s hs
    obtain ⟨vs, hpseudo, hvs⟩ := (hselector.within p hp).mono hus
    exact hpseudo.spelled hvs (hplain s hs p hp) minify fun _ => hapart s hs p hp
  have hread (minify : Bool) : (minify = true → list.HyphensApart) → ∃ list' : SelectorList, _ ∧ _ :=
    parseText_selectorsText (ne_nil_of_parse h)
      (fun s hs => ⟨readFrom_of_parseText h s hs, fun p hp => (hspelled s hs p hp minify).legible⟩)
      (fun s hs p hp => (hspelled s hs p hp minify).enclosed)
  obtain ⟨pretty, hpretty, hprettySame⟩ := hread false Bool.noConfusion
  obtain ⟨short, hshort, hshortSame⟩ := hread true fun _ => hhyphens
  have harguments := sameArguments_of_unplaced hprettySame hshortSame hspelled
  exact ⟨pretty, short, hpretty, hshort, outline_of_unplaced hprettySame,
    outline_of_unplaced hshortSame, harguments, forall₂_agree_iff harguments⟩

/-- Two selectors with an escape, combinators, arguments with a comma, a number and spaces, a comment
and an ampersand. -/
def mixedSelectors : String :=
  "ul  > l\\69 :not( .a , b ):nth-child( +1.50 ),/* c */& ::before"

theorem parseText_forms_mixedSelectors :
    ∃ list, parseText mixedSelectors = .ok list ∧ list.PlainArguments mixedSelectors ∧
      list.NumbersApart ∧ list.HyphensApart ∧
      selectorsText false list = "ul > li:not(.a , b):nth-child(+1.50), & ::before" ∧
      selectorsText true list = "ul>li:not(.a,b):nth-child(+1.5),& ::before" ∧
      ∃ pretty short, parseText (selectorsText false list) = .ok pretty ∧
        parseText (selectorsText true list) = .ok short ∧
        pretty.outline = list.outline ∧ short.outline = list.outline ∧
        List.Forall₂ SameArgument pretty.arguments short.arguments ∧
        (List.Forall₂ Agree pretty.arguments short.arguments ↔
          ∀ us ∈ pretty.arguments, SpacesNeeded us) := by
  have hok : (parseText mixedSelectors).toOption.any (fun list =>
      decide (list.PlainArguments mixedSelectors) && decide list.NumbersApart &&
      selectorsText false list == "ul > li:not(.a , b):nth-child(+1.50), & ::before" &&
      selectorsText true list == "ul>li:not(.a,b):nth-child(+1.5),& ::before" &&
      (list.tokens true).all fun t => t.text != "--") = true := by
    decide +kernel
  obtain ⟨list, h, hshown⟩ := exists_ok_of_any hok
  simp only [Bool.and_eq_true, decide_eq_true_eq, beq_iff_eq, List.all_eq_true, bne_iff_ne] at hshown
  obtain ⟨⟨⟨⟨hplain, hapart⟩, hpretty⟩, hshort⟩, htexts⟩ := hshown
  have hhyphens : list.HyphensApart := fun t ht _ => htexts t ht
  exact ⟨list, h, hplain, hapart, hhyphens, hpretty, hshort,
    parseText_forms h hplain hapart hhyphens⟩

/-- With two hyphens for a name they are not: the short form has the end of a comment. -/
example : ((parseText "-- > b").toOption.any fun list =>
    selectorsText true list == "-->b" && !(parseText (selectorsText true list)).isOk) = true := by
  decide +kernel

end Selector

/-- A descendant combinator in the argument of a pseudo-class. -/
def descendantInArgument : String :=
  ":not(.a :hover)"

/-- The short form leaves out the space of a descendant combinator in an argument. -/
theorem descendant_lost_in_argument :
    (∃ list, Selector.parseText descendantInArgument = .ok list ∧
      formatSelectors true list = [":not(.a:hover)"] ∧
      formatSelectors false list = [":not(.a :hover)"]) ∧
    (∃ list, Selector.parseText ":not(.a:hover)" = .ok list ∧
      (list.values.filter Value.isWhitespace).length = 0) ∧
    ∃ list, Selector.parseText ":not(.a :hover)" = .ok list ∧
      (list.values.filter Value.isWhitespace).length = 1 := by
  have hforms : (Selector.parseText descendantInArgument).toOption.any (fun list =>
      formatSelectors true list == [":not(.a:hover)"] &&
        formatSelectors false list == [":not(.a :hover)"]) = true := by
    decide +kernel
  have hshort : (Selector.parseText ":not(.a:hover)").toOption.any (fun list =>
      (list.values.filter Value.isWhitespace).length == 0) = true := by
    decide +kernel
  have hpretty : (Selector.parseText ":not(.a :hover)").toOption.any (fun list =>
      (list.values.filter Value.isWhitespace).length == 1) = true := by
    decide +kernel
  obtain ⟨list, h, hshown⟩ := exists_ok_of_any hforms
  obtain ⟨short, h₁, hnone⟩ := exists_ok_of_any hshort
  obtain ⟨pretty, h₂, hone⟩ := exists_ok_of_any hpretty
  rw [Bool.and_eq_true, beq_iff_eq, beq_iff_eq] at hshown
  exact ⟨⟨list, h, hshown⟩, ⟨short, h₁, beq_iff_eq.mp hnone⟩, pretty, h₂, beq_iff_eq.mp hone⟩

end Cascade
