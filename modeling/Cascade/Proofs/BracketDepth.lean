import Cascade.Output.Selectors
import Cascade.Proofs.Escapes
import Cascade.Proofs.SelectorGroups
import Mathlib.Algebra.BigOperators.Group.List.Basic
import Mathlib.Algebra.Ring.Int.Defs

/-!
# The depth of brackets in what is written

How much deeper in parentheses and square brackets one is behind a text than before it.
Escapes make no difference, and the brackets which the writer puts around attributes and
arguments cancel out, so that behind a selector the depth is that of the brackets inside
of names, strings and arguments.

**Method.**  `depthChange` of a text is the sum over its characters, `strayDepth` of a
part of a selector that over the texts of its tokens; arguments count as they are
written.  A value is level if its tokens have no brackets but their own and every group
is closed by its own closer; then brackets in arguments cancel out as well.

**Results.**
* `depthChange_compoundText`: the depth behind a compound.
* `ComplexSelector.WrittenAs.strayDepth`: it is zero in selectors of level values.
-/

namespace Cascade
namespace Output

/-! ## The depth of brackets -/

/-- What a character adds to the bracket depth; braces do not count. -/
def bracketStep (c : Char) : Int :=
  if c = '(' ∨ c = '[' then 1
  else if c = ')' ∨ c = ']' then -1
  else 0

/-- What a text adds to the bracket depth. -/
def depthChange (s : List Char) : Int :=
  (s.map bracketStep).sum

@[simp] theorem depthChange_nil :
    depthChange [] = 0 := by
  rfl

@[simp] theorem depthChange_cons (c : Char) (s : List Char) :
    depthChange (c :: s) = bracketStep c + depthChange s := by
  simp [depthChange]

@[simp] theorem depthChange_append (s t : List Char) :
    depthChange (s ++ t) = depthChange s + depthChange t := by
  simp [depthChange]

theorem depthChange_flatMap {α : Type} (f : α → List Char) (as : List α) :
    depthChange (as.flatMap f) = (as.map fun a => depthChange (f a)).sum := by
  induction as with
  | nil => rfl
  | cons a as ih => simp [ih]

theorem depthChange_eq_zero {s : List Char} (h : ∀ c ∈ s, bracketStep c = 0) :
    depthChange s = 0 :=
  List.sum_eq_zero (List.forall_mem_map.mpr h)

/-- The codes of the four brackets tell them from all other characters. -/
theorem bracketStep_eq_zero {c : Char}
    (h : c.toNat ≠ 40 ∧ c.toNat ≠ 41 ∧ c.toNat ≠ 91 ∧ c.toNat ≠ 93) :
    bracketStep c = 0 := by
  unfold bracketStep
  split
  · next hopens => rcases hopens with rfl | rfl <;> exact absurd h (by decide)
  · split
    · next hcloses => rcases hcloses with rfl | rfl <;> exact absurd h (by decide)
    · rfl

/-! ## Escapes -/

theorem depthChange_hexEscape {c : Char} (hzero : c.toNat ≠ 0) (hascii : c.toNat < 128) :
    depthChange (hexEscape c) = 0 := by
  have hdigits : depthChange (Nat.toDigits 16 c.toNat) = 0 := by
    refine depthChange_eq_zero fun d hd => bracketStep_eq_zero ?_
    have hall := (Lexer.toDigits_ascii c.toNat hascii hzero).2.2.1
    have hhex := Lexer.isHexDigit_iff.mp (List.all_eq_true.mp hall d hd)
    omega
  simp [hexEscape, hdigits, bracketStep]

theorem bracketStep_control {c : Char} (h : isControl c = true) :
    bracketStep c = 0 := by
  rw [isControl_iff] at h
  exact bracketStep_eq_zero (by omega)

theorem depthChange_hexEscape_control {c : Char} (h : isControl c = true) :
    depthChange (hexEscape c) = bracketStep c := by
  rw [bracketStep_control h]
  rw [isControl_iff] at h
  exact depthChange_hexEscape (by omega) (by omega)

theorem depthChange_null {c : Char} (h : c.toNat = 0) :
    depthChange ['\ufffd'] = bracketStep c := by
  rw [bracketStep_eq_zero (by omega)]
  rfl

/-- A backslash changes nothing. -/
theorem depthChange_backslash (c : Char) :
    depthChange ['\\', c] = bracketStep c := by
  simp [bracketStep]

theorem depthChange_escapeNameChar (c : Char) :
    depthChange (escapeNameChar c) = bracketStep c := by
  unfold escapeNameChar
  split
  · next h => exact depthChange_null h
  · split
    · next h => exact depthChange_hexEscape_control h
    · split
      · simp
      · exact depthChange_backslash c

theorem depthChange_escapeName (s : List Char) :
    depthChange (escapeName s) = depthChange s := by
  rw [escapeName, depthChange_flatMap, funext depthChange_escapeNameChar, depthChange]

theorem depthChange_escapeStartChar (c : Char) :
    depthChange (escapeStartChar c) = bracketStep c := by
  unfold escapeStartChar
  split
  · next h =>
      have hcode := Lexer.isDigit_iff.mp h
      rw [depthChange_hexEscape (by omega) (by omega), bracketStep_eq_zero (by omega)]
  · exact depthChange_escapeNameChar c

@[simp] theorem depthChange_escapeIdent (s : List Char) :
    depthChange (escapeIdent s) = depthChange s := by
  fun_cases escapeIdent s <;>
    simp [depthChange_escapeStartChar, depthChange_escapeName, bracketStep]

theorem depthChange_quoteStringChar (mark c : Char) :
    depthChange (quoteStringChar mark c) = bracketStep c := by
  unfold quoteStringChar
  split
  · next h => exact depthChange_null h
  · split
    · next h => exact depthChange_hexEscape_control h
    · split
      · exact depthChange_backslash c
      · simp

@[simp] theorem depthChange_quoteString (q : Quote) (s : List Char) :
    depthChange (quoteString q s) = depthChange s := by
  have hmark : bracketStep q.char = 0 := by cases q <;> rfl
  have hinside : depthChange (s.flatMap (quoteStringChar q.char)) = depthChange s := by
    rw [depthChange_flatMap, funext (depthChange_quoteStringChar q.char), depthChange]
  simp [quoteString, hinside, hmark]

end Output

open Output

/-! ## Brackets inside of names, strings and arguments -/

/-- What the text of the token adds to the bracket depth. -/
def Token.strayDepth (t : Token) : Int :=
  depthChange t.text.toList

/-- What a token adds that may be missing. -/
def strayDepthOf (o : Option Token) : Int :=
  (o.map Token.strayDepth).getD 0

/-- What the name in a qualifier adds. -/
def Qualifier.strayDepth (q : Qualifier) : Int :=
  strayDepthOf q.name

/-- What a qualifier adds that may be missing. -/
def qualifierDepth (q : Option Qualifier) : Int :=
  (q.map Qualifier.strayDepth).getD 0

/-- What the names of a type selector add. -/
def TypeSelector.strayDepth : TypeSelector → Int
  | .named q ident => qualifierDepth q + ident.strayDepth
  | .universal q _ => qualifierDepth q

/-- What the names and the value of an attribute add. -/
def Attribute.strayDepth (a : Attribute) : Int :=
  qualifierDepth a.qualifier + a.name.strayDepth +
    (a.matcher.map fun m => strayDepthOf m.sign + strayDepthOf a.value).getD 0 +
    strayDepthOf a.modifier

/-- What the name and the argument of a pseudo-class add. -/
def PseudoClass.strayDepth (minify : Bool) (p : PseudoClass) : Int :=
  p.name.strayDepth + (p.argument.map fun vs => depthChange (valuesText minify vs)).getD 0

/-- What a condition adds; a reference adds what the text for it does. -/
def Subclass.strayDepth (minify : Bool) (parent : List Char) : Subclass → Int
  | .id hash => hash.strayDepth
  | .className _ ident => ident.strayDepth
  | .attr a => a.strayDepth
  | .pseudo p => p.strayDepth minify
  | .nesting _ => depthChange parent

/-- What a pseudo-element and the pseudo-classes behind it add. -/
def PseudoElement.strayDepth (minify : Bool) (e : PseudoElement) : Int :=
  e.element.strayDepth minify + (e.classes.map (PseudoClass.strayDepth minify)).sum

/-- What a compound adds. -/
def Compound.strayDepth (minify : Bool) (parent : List Char) (c : Compound) : Int :=
  (c.type.map TypeSelector.strayDepth).getD 0 +
    (c.subclasses.map (Subclass.strayDepth minify parent)).sum +
    (c.pseudos.map (PseudoElement.strayDepth minify)).sum

/-- What the compounds of a selector add. -/
def ComplexSelector.strayDepth (minify : Bool) (parent : List Char) (s : ComplexSelector) : Int :=
  (s.map fun part => part.compound.strayDepth minify parent).sum

/-! ## The depth behind a selector -/

namespace Output

section Selectors

variable (minify : Bool) (parent : List Char)

theorem depthChange_getD {α : Type} (f : α → List Char) (o : Option α) :
    depthChange ((o.map f).getD []) = (o.map fun a => depthChange (f a)).getD 0 := by
  cases o <;> rfl

theorem depthChange_qualifierText (q : Option Qualifier) :
    depthChange (qualifierText q) = qualifierDepth q := by
  rcases q with _ | ⟨_ | t, bar⟩
  · rfl
  · rfl
  · by_cases hstar : t.isDelim "*" = true
    · have htext : t.text = "*" := (Token.isDelim_iff.mp hstar).2
      simp [qualifierText, qualifierDepth, Qualifier.strayDepth, strayDepthOf, Token.strayDepth, hstar,
        htext, bracketStep]
    · simp [qualifierText, qualifierDepth, Qualifier.strayDepth, strayDepthOf, Token.strayDepth, hstar,
        bracketStep]

theorem depthChange_typeText (t : TypeSelector) :
    depthChange (typeText t) = t.strayDepth := by
  cases t <;>
    simp [typeText, TypeSelector.strayDepth, Token.strayDepth, depthChange_qualifierText, bracketStep]

theorem depthChange_attributeValueText (t : Token) :
    depthChange (attributeValueText t) = t.strayDepth := by
  unfold attributeValueText
  split <;> simp [Token.strayDepth]

/-- The brackets of the attribute cancel out. -/
theorem depthChange_attributeText (a : Attribute) :
    depthChange (attributeText a) = a.strayDepth := by
  have hvalue : depthChange ((a.value.map attributeValueText).getD []) = strayDepthOf a.value := by
    rw [depthChange_getD, funext depthChange_attributeValueText, strayDepthOf]
  have hmodifier : depthChange ((a.modifier.map fun t => ' ' :: t.text.toList).getD []) =
      strayDepthOf a.modifier := by
    rw [depthChange_getD, strayDepthOf]
    cases a.modifier <;> simp [Token.strayDepth, bracketStep]
  have hopener : bracketStep '[' = 1 := rfl
  have hequals : bracketStep '=' = 0 := rfl
  have hcloser : bracketStep ']' = -1 := rfl
  unfold attributeText Attribute.strayDepth Token.strayDepth
  cases a.matcher with
  | none =>
      simp only [depthChange_cons, depthChange_append, depthChange_nil, depthChange_qualifierText,
        depthChange_escapeIdent, hmodifier, hopener, hcloser, Option.map_none, Option.getD_none]
      omega
  | some m =>
      have hsign : depthChange ((m.sign.map (·.text.toList)).getD []) = strayDepthOf m.sign :=
        depthChange_getD _ _
      simp only [depthChange_cons, depthChange_append, depthChange_nil, depthChange_qualifierText,
        depthChange_escapeIdent, hsign, hvalue, hmodifier, hopener, hequals, hcloser, Option.map_some,
        Option.getD_some]
      omega

/-- The parentheses around the argument cancel out. -/
theorem depthChange_pseudoText (p : PseudoClass) :
    depthChange (pseudoText minify p) = p.strayDepth minify := by
  unfold pseudoText PseudoClass.strayDepth
  cases p.argument with
  | none => simp [Token.strayDepth, bracketStep]
  | some vs => simp [Token.strayDepth, bracketStep]

theorem depthChange_nestingText (atStart : Bool) :
    depthChange (nestingText atStart parent) = depthChange parent := by
  unfold nestingText
  dsimp only
  split
  · rfl
  · simp [bracketStep]

theorem depthChange_subclassText (atStart : Bool) (s : Subclass) :
    depthChange (subclassText minify parent atStart s) = s.strayDepth minify parent := by
  cases s with
  | id | className => simp [subclassText, Subclass.strayDepth, Token.strayDepth, bracketStep]
  | attr a => exact depthChange_attributeText a
  | pseudo p => exact depthChange_pseudoText minify p
  | nesting => exact depthChange_nestingText parent atStart

theorem depthChange_pseudoElementText (e : PseudoElement) :
    depthChange (pseudoElementText minify e) = e.strayDepth minify := by
  simp [pseudoElementText, PseudoElement.strayDepth, depthChange_flatMap, depthChange_pseudoText,
    bracketStep]

theorem depthChange_compoundText (c : Compound) :
    depthChange (compoundText minify parent c) = c.strayDepth minify parent := by
  have htype : depthChange ((c.type.map typeText).getD []) =
      (c.type.map TypeSelector.strayDepth).getD 0 := by
    rw [depthChange_getD, funext depthChange_typeText]
  unfold compoundText Compound.strayDepth
  dsimp only
  cases c.subclasses <;>
    simp [htype, depthChange_flatMap, depthChange_subclassText, depthChange_pseudoElementText, add_assoc]

theorem depthChange_combinatorText (c : Combinator) :
    depthChange (combinatorText minify c) = 0 := by
  cases c <;> cases minify <;> rfl

end Selectors

end Output

/-! ## Values whose brackets match -/

/-- What a token of the type adds to the bracket depth by itself. -/
def TokenType.bracketStep : TokenType → Int
  | .function | .openParen | .openBracket => 1
  | .closeParen | .closeBracket => -1
  | _ => 0

/-- The token is written with no brackets but its own, or with others that cancel out. -/
def Token.IsLevel (minify : Bool) (t : Token) : Prop :=
  depthChange (tokenText minify t) = t.type.bracketStep

instance (minify : Bool) (t : Token) : Decidable (t.IsLevel minify) :=
  inferInstanceAs (Decidable (_ = _))

/-- The value is made of such tokens, and every group in it is closed by its own closer. -/
inductive Value.IsLevel (minify : Bool) : Value → Prop
  | token {t : Token} : t.IsLevel minify → IsLevel minify (.token t)
  | block {opener closer : Token} {contents : List Value} :
      opener.type.partner? = some closer.type → opener.IsLevel minify →
      (∀ v ∈ contents, v.IsInner) → (∀ v ∈ contents, IsLevel minify v) →
      IsLevel minify (.block opener contents (some closer))
  | call {name closer : Token} {args : List (List Value)} {commas : List Token} :
      name.type = .function → name.IsLevel minify →
      (∀ v ∈ flattenArguments args commas, v.IsInner) →
      (∀ v ∈ flattenArguments args commas, IsLevel minify v) →
      IsLevel minify (.call name args commas (some closer))

/-- What a value adds to the bracket depth by itself; a group adds nothing. -/
def Value.bracketStep : Value → Int
  | .token t => t.type.bracketStep
  | _ => 0

theorem mem_flattenArguments_of_mem {v : Value} {arg : List Value} {args : List (List Value)}
    {commas : List Token} (harg : arg ∈ args) (hv : v ∈ arg) :
    v ∈ flattenArguments args commas := by
  fun_induction flattenArguments args commas with
  | case1 => cases harg
  | case2 first => rwa [← List.mem_singleton.mp harg]
  | case3 first rest _ ih =>
      rcases List.mem_cons.mp harg with rfl | harg
      · exact List.mem_append_left _ hv
      · exact List.mem_append_right _ (ih harg)
  | case4 first rest comma commas _ ih =>
      rcases List.mem_cons.mp harg with rfl | harg
      · exact List.mem_append_left _ hv
      · exact List.mem_append_right _ (List.mem_cons_of_mem _ (ih harg))

/-- The values are level. -/
abbrev AllLevel (minify : Bool) (vs : List Value) : Prop :=
  ∀ v ∈ vs, v.IsLevel minify

namespace TokenType

/-- A group adds nothing to the bracket depth. -/
theorem bracketStep_of_closer? {opener closer : TokenType} (h : opener.closer? = some closer) :
    opener.bracketStep + closer.bracketStep = 0 := by
  cases opener <;> cases h <;> rfl

theorem bracketStep_eq_zero {type : TokenType} (hopens : type.closer? = none)
    (hcloses : type.isCloser = false) :
    type.bracketStep = 0 := by
  revert hopens hcloses
  cases type <;> decide

end TokenType

theorem Value.IsInner.bracketStep {v : Value} (h : v.IsInner) :
    v.bracketStep = 0 := by
  cases v with
  | token t => exact TokenType.bracketStep_eq_zero (h t rfl).1 (h t rfl).2
  | _ => rfl

/-- Where every bracket is closed, the steps cancel out. -/
theorem BalancedRun.bracketStep {vs : List Value} (h : BalancedRun vs) :
    (vs.map Value.bracketStep).sum = 0 := by
  induction h with
  | nil => rfl
  | inner hv _ ih => rw [List.map_cons, List.sum_cons, hv.bracketStep, ih, add_zero]
  | @group opener closer us vs hpair _ _ ihus ihvs =>
      have hsteps := TokenType.bracketStep_of_closer? hpair
      simp only [List.map_cons, List.map_append, List.sum_cons, List.sum_append, Value.bracketStep, ihus,
        ihvs]
      omega

/-- What level tokens make up is level. -/
theorem MakeUp.level {minify : Bool} {ts : List Token} {vs : List Value} (h : MakeUp ts vs)
    (hts : ∀ t ∈ ts, t.IsLevel minify) :
    (∀ v ∈ vs, v.IsInner) ∧ AllLevel minify vs := by
  have hgroup {ts us : List Token} {opener closer : Token}
      (hts : ∀ t ∈ opener :: (us ++ closer :: ts), t.IsLevel minify) :
      opener.IsLevel minify ∧ (∀ t ∈ us, t.IsLevel minify) ∧ ∀ t ∈ ts, t.IsLevel minify := by
    obtain ⟨hopener, hts⟩ := List.forall_mem_cons.mp hts
    obtain ⟨hus, hts⟩ := List.forall_mem_append.mp hts
    exact ⟨hopener, hus, (List.forall_mem_cons.mp hts).2⟩
  induction h with
  | nil => exact ⟨List.forall_mem_nil _, List.forall_mem_nil _⟩
  | single hopens hcloses _ ih =>
      obtain ⟨ht, hts⟩ := List.forall_mem_cons.mp hts
      obtain ⟨hinner, hvs⟩ := ih hts
      refine ⟨List.forall_mem_cons.mpr ⟨?_, hinner⟩, List.forall_mem_cons.mpr ⟨.token ht, hvs⟩⟩
      rintro _ ⟨rfl⟩
      exact ⟨hopens, hcloses⟩
  | block hpartner _ _ ihinside ih =>
      obtain ⟨hopener, hinside, hts⟩ := hgroup hts
      obtain ⟨hinner, hvs⟩ := ih hts
      obtain ⟨hcontents, hlevel⟩ := ihinside hinside
      exact ⟨List.forall_mem_cons.mpr ⟨nofun, hinner⟩,
        List.forall_mem_cons.mpr ⟨.block hpartner hopener hcontents hlevel, hvs⟩⟩
  | @call name closer _ _ us _ hname _ _ _ ihinside ih =>
      obtain ⟨hopener, hinside, hts⟩ := hgroup hts
      obtain ⟨hinner, hvs⟩ := ih hts
      obtain ⟨args, commas, hcall, rfl⟩ := exists_callOf name us closer
      obtain ⟨hcontents, hlevel⟩ := ihinside hinside
      rw [hcall]
      exact ⟨List.forall_mem_cons.mpr ⟨nofun, hinner⟩,
        List.forall_mem_cons.mpr ⟨.call hname hopener hcontents hlevel, hvs⟩⟩

namespace Output

variable {minify : Bool}

theorem depthChange_valuesAfter (vs : List Value) (before : Option Value) :
    depthChange (valuesAfter minify before vs) =
      (vs.map fun v => depthChange (valueText minify v)).sum := by
  induction vs generalizing before with
  | nil => rfl
  | cons v vs ih =>
      rw [valuesAfter, List.map_cons, List.sum_cons]
      split
      · next hblank =>
          have hv : depthChange (valueText minify v) = 0 := by
            cases v with
            | token t =>
                have htype : t.type = .whitespace := beq_iff_eq.mp hblank
                simp [valueText, tokenText, htype, bracketStep]
            | _ => cases hblank
          split <;> simp [ih, hv, bracketStep]
      · rw [depthChange_append, ih]

theorem depthChange_argumentsText {args : List (List Value)}
    (h : ∀ arg ∈ args, ∀ v ∈ arg, depthChange (valueText minify v) = 0) :
    depthChange (argumentsText minify args) = 0 := by
  have hargument {arg : List Value} (harg : ∀ v ∈ arg, depthChange (valueText minify v) = 0) :
      depthChange (valuesAfter minify none arg) = 0 := by
    rw [depthChange_valuesAfter]
    exact List.sum_eq_zero (List.forall_mem_map.mpr harg)
  induction args with
  | nil => rfl
  | cons arg args ih =>
      obtain ⟨harg, hargs⟩ := List.forall_mem_cons.mp h
      cases args with
      | nil => exact hargument harg
      | cons next more => cases minify <;> simp [argumentsText, hargument harg, ih hargs, bracketStep]

theorem depthChange_closerText {opener closer : TokenType} (h : opener.partner? = some closer) :
    depthChange (closerText opener) = closer.bracketStep := by
  cases opener <;> cases h <;> rfl

theorem tokenText_of_partner? {t : Token} {closer : TokenType} (h : t.type.partner? = some closer) :
    tokenText minify t = t.text.toList := by
  unfold tokenText
  cases htype : t.type <;> rw [htype] at h <;> first | rfl | cases h

/-- A level value adds its own step to the bracket depth. -/
theorem depthChange_valueText {v : Value} (h : v.IsLevel minify) :
    depthChange (valueText minify v) = v.bracketStep := by
  -- What a group holds are values that add nothing.
  have hinside {vs : List Value} (hinner : ∀ v ∈ vs, v.IsInner)
      (ih : ∀ v ∈ vs, depthChange (valueText minify v) = v.bracketStep) :
      ∀ v ∈ vs, depthChange (valueText minify v) = 0 :=
    fun v hv => (ih v hv).trans (hinner v hv).bracketStep
  induction h with
  | token ht => exact ht
  | @block opener closer contents hpartner hopener hinner _ ih =>
      have hcontents : depthChange (valuesAfter minify none contents) = 0 := by
        rw [depthChange_valuesAfter]
        exact List.sum_eq_zero (List.forall_mem_map.mpr (hinside hinner ih))
      have hsteps := TokenType.bracketStep_of_closer? (TokenType.closer?_of_partner? hpartner)
      rw [Token.IsLevel, tokenText_of_partner? hpartner] at hopener
      rw [valueText, depthChange_append, depthChange_append, hopener, hcontents,
        depthChange_closerText hpartner, add_zero, hsteps]
      rfl
  | @call name closer args commas hname hlevel hinner _ ih =>
      have harguments : depthChange (argumentsText minify args) = 0 :=
        depthChange_argumentsText fun arg harg v hv =>
          hinside hinner ih v (mem_flattenArguments_of_mem harg hv)
      have hparen : depthChange name.text.toList = 0 := by
        rw [Token.IsLevel, tokenText, hname] at hlevel
        simpa [TokenType.bracketStep, bracketStep] using hlevel
      simp [valueText, harguments, hparen, Value.bracketStep, bracketStep]

/-- Level values whose brackets match add nothing. -/
theorem depthChange_valuesText {vs : List Value} (hvs : AllLevel minify vs)
    (hsteps : (vs.map Value.bracketStep).sum = 0) :
    depthChange (valuesText minify vs) = 0 := by
  rw [valuesText, depthChange_valuesAfter, ← hsteps]
  exact congrArg List.sum (List.map_congr_left fun v hv => depthChange_valueText (hvs v hv))

end Output

/-! ## Selectors of level values -/

/-- The types of the tokens that selectors write outside of arguments. -/
def wordTypes : List TokenType :=
  [.ident, .function, .hash, .string, .delim]

/-- The words among the values add nothing to the bracket depth. -/
def LevelWords (vs : List Value) : Prop :=
  ∀ t, .token t ∈ vs → t.type ∈ wordTypes → t.strayDepth = 0

section Words

variable {minify : Bool} {parent : List Char} {us vs : List Value}

theorem Token.IsLevel.strayDepth {t : Token} (h : t.IsLevel minify) (htype : t.type ∈ wordTypes) :
    t.strayDepth = 0 := by
  unfold Token.IsLevel tokenText at h
  unfold Token.strayDepth
  simp only [wordTypes, List.mem_cons, List.not_mem_nil, or_false] at htype
  rcases htype with htype | htype | htype | htype | htype <;> rw [htype] at h
  · simpa [TokenType.bracketStep] using h
  · simpa [TokenType.bracketStep, bracketStep] using h
  · dsimp only at h
    split at h <;> simpa [TokenType.bracketStep, bracketStep, depthChange_escapeName] using h
  · simpa [TokenType.bracketStep] using h
  · exact h

theorem AllLevel.words (h : AllLevel minify vs) :
    LevelWords vs := by
  intro t ht htype
  cases h _ ht with
  | token hlevel => exact hlevel.strayDepth htype

theorem LevelWords.mono (h : LevelWords vs) (hus : us ⊆ vs) :
    LevelWords us :=
  fun t ht htype => h t (hus ht) htype

theorem strayDepthOf_eq_zero {o : Option Token} (h : ∀ t ∈ o, t.strayDepth = 0) :
    strayDepthOf o = 0 := by
  cases o with
  | none => rfl
  | some t => exact h t rfl

theorem type_of_isName {t : Token} (h : (Value.token t).isName = true) :
    t.type ∈ wordTypes := by
  rcases Bool.or_eq_true_iff.mp h with hident | hstar
  · simp [wordTypes, show t.type = .ident from beq_iff_eq.mp hident]
  · simp [wordTypes, (Token.isDelim_iff.mp hstar).1]

theorem qualifierDepth_eq_zero {q : Option Qualifier} (hq : ∀ p ∈ q, p.Proper)
    (hvs : LevelWords (qualifierYield q)) :
    qualifierDepth q = 0 := by
  cases q with
  | none => rfl
  | some q =>
      refine strayDepthOf_eq_zero fun t ht => hvs t ?_ (type_of_isName ((hq q rfl).name t ht))
      simp [qualifierYield, Qualifier.yield, Option.mem_def.mp ht]

theorem TypeSelector.Proper.strayDepth {t : TypeSelector} (ht : t.Proper) (hvs : LevelWords t.yield) :
    t.strayDepth = 0 := by
  cases t with
  | named q ident =>
      have hqualifier := qualifierDepth_eq_zero ht.1 (hvs.mono (List.subset_append_left _ _))
      have hname := hvs ident (by simp [yield]) (by simp [wordTypes, ht.2])
      rw [TypeSelector.strayDepth, hqualifier, hname, add_zero]
  | universal q star => exact qualifierDepth_eq_zero ht.1 (hvs.mono (List.subset_append_left _ _))

theorem Attribute.WrittenBehind.strayDepth {a : Attribute} (ha : a.WrittenBehind vs)
    (hvs : LevelWords vs) :
    a.strayDepth = 0 := by
  cases ha with
  | @plain _ name _ _ _ _ _ hq hname _ _ =>
      have hqualifier := qualifierDepth_eq_zero hq (hvs.mono fun v hv => by simp [hv])
      have hname := hvs name (by simp) (by simp [wordTypes, hname])
      simp [Attribute.strayDepth, hqualifier, hname, strayDepthOf]
  | @valued _ name value _ _ m modifier _ _ _ _ _ _ hq hname _ hm _ hvalue _ hmodifier _ _ =>
      have hqualifier := qualifierDepth_eq_zero hq (hvs.mono fun v hv => by simp [hv])
      have hname := hvs name (by simp) (by simp [wordTypes, hname])
      have hsign : strayDepthOf m.sign = 0 := strayDepthOf_eq_zero fun t ht =>
        hvs t (by simp [Matcher.yield, Option.mem_def.mp ht]) (by simp [wordTypes, (hm.sign t ht).1])
      have hvalue : strayDepthOf (some value) = 0 :=
        hvs value (by simp) (by rcases hvalue with h | h <;> simp [wordTypes, h])
      have hmodifier : strayDepthOf modifier = 0 := strayDepthOf_eq_zero fun t ht =>
        hvs t (by simp [Option.mem_def.mp ht]) (by simp [wordTypes, (hmodifier t ht).1])
      simp [Attribute.strayDepth, hqualifier, hname, hsign, hmodifier, hvalue]

theorem Attribute.WrittenAs.strayDepth {a : Attribute} (ha : a.WrittenAs vs) (hvs : AllLevel minify vs) :
    a.strayDepth = 0 := by
  cases ha with
  | flat _ hbehind => exact hbehind.strayDepth ((AllLevel.words hvs).mono (List.subset_cons_self _ _))
  | @block contents us ws closer hopener hbehind hsplit =>
      refine hbehind.strayDepth fun t ht htype => ?_
      cases hvs _ List.mem_cons_self with
      | block hpartner _ _ hcontents =>
          have hmem : .token t ∈ contents ++ [.token closer] := hsplit ▸ List.mem_append_left ws ht
          rcases List.mem_append.mp hmem with hmem | hmem
          · exact AllLevel.words hcontents t hmem htype
          · -- The closer is a bracket and no word.
            obtain ⟨rfl⟩ := List.mem_singleton.mp hmem
            rw [hopener] at hpartner
            rw [← Option.some.inj hpartner] at htype
            exact absurd htype (by decide)

theorem PseudoClass.WrittenAs.strayDepth {p : PseudoClass} (hp : p.WrittenAs vs)
    (hvs : AllLevel minify vs) :
    p.strayDepth minify = 0 := by
  cases hp with
  | @plain _ name _ hname =>
      have hname := AllLevel.words hvs name (by simp) (by simp [wordTypes, hname])
      simp [PseudoClass.strayDepth, hname]
  | @function _ name _ argument _ hname hbalanced _ =>
      have hname := AllLevel.words hvs name (by simp) (by simp [wordTypes, hname])
      have hargument := depthChange_valuesText (fun v hv => hvs v (by simp [hv])) hbalanced.bracketStep
      simp [PseudoClass.strayDepth, hname, hargument]
  | @call _ name closer args commas _ =>
      cases hvs (.call name args commas (some closer)) (by simp) with
      | call hname hlevel hinner hargs =>
          have hname := hlevel.strayDepth (by simp [wordTypes, hname])
          have hsteps : ((flattenArguments args commas).map Value.bracketStep).sum = 0 :=
            List.sum_eq_zero (List.forall_mem_map.mpr fun v hv => (hinner v hv).bracketStep)
          simp [PseudoClass.strayDepth, hname, depthChange_valuesText hargs hsteps]

theorem Subclass.WrittenAs.strayDepth {c : Subclass} (hc : c.WrittenAs vs) (hvs : AllLevel minify vs)
    (hparent : depthChange parent = 0) :
    c.strayDepth minify parent = 0 := by
  cases hc with
  | @id hash hhash =>
      have htype : hash.type = .hash := by
        rw [Token.isIdHash, Bool.and_eq_true] at hhash
        exact beq_iff_eq.mp hhash.1
      exact AllLevel.words hvs hash (by simp) (by simp [wordTypes, htype])
  | @className dot ident _ hident => exact AllLevel.words hvs ident (by simp) (by simp [wordTypes, hident])
  | attr ha => exact ha.strayDepth hvs
  | pseudo hp => exact hp.strayDepth hvs
  | nesting => exact hparent

theorem PseudoElement.WrittenAs.strayDepth {e : PseudoElement} (he : e.WrittenAs vs)
    (hvs : AllLevel minify vs) :
    e.strayDepth minify = 0 := by
  cases he with
  | intro _ helement hclasses =>
      obtain ⟨-, hvs⟩ := List.forall_mem_cons.mp hvs
      obtain ⟨hus, hvs⟩ := List.forall_mem_append.mp hvs
      have hall := hclasses.forall_of_forall hvs fun p us hp hus => hp.strayDepth hus
      rw [PseudoElement.strayDepth, helement.strayDepth hus, List.sum_eq_zero (List.forall_mem_map.mpr hall),
        add_zero]

theorem Compound.WrittenAs.strayDepth {c : Compound} (hc : c.WrittenAs vs) (hvs : AllLevel minify vs)
    (hparent : depthChange parent = 0) :
    c.strayDepth minify parent = 0 := by
  cases hc with
  | intro htype hsubclasses hpseudos _ =>
      obtain ⟨htokens, hvs⟩ := List.forall_mem_append.mp hvs
      obtain ⟨hus, hvs⟩ := List.forall_mem_append.mp hvs
      have hconditions := hsubclasses.forall_of_forall hus fun s us hs hus => hs.strayDepth hus hparent
      have helements := hpseudos.forall_of_forall hvs fun e us he hus => he.strayDepth hus
      have hname : (c.type.map TypeSelector.strayDepth).getD 0 = 0 := by
        cases heq : c.type with
        | none => rfl
        | some t =>
            rw [heq] at htokens
            exact (htype t heq).strayDepth (AllLevel.words htokens)
      rw [Compound.strayDepth, hname, List.sum_eq_zero (List.forall_mem_map.mpr hconditions),
        List.sum_eq_zero (List.forall_mem_map.mpr helements)]
      rfl

/-- The compounds of a selector which level values write add nothing. -/
theorem ComplexSelector.WrittenAs.strayDepth {s : ComplexSelector} (hs : s.WrittenAs vs)
    (hvs : AllLevel minify vs) (hparent : depthChange parent = 0) :
    ∀ part ∈ s, part.compound.strayDepth minify parent = 0 := by
  cases hs with
  | intro hfirst hothers =>
      obtain ⟨hus, hvs⟩ := List.forall_mem_append.mp hvs
      refine List.forall_mem_cons.mpr ⟨hfirst.strayDepth hus hparent, ?_⟩
      refine hothers.forall_of_forall hvs fun part us hpart hus => ?_
      cases hpart with
      | intro _ hcompound => exact hcompound.strayDepth (List.forall_mem_append.mp hus).2 hparent

end Words

end Cascade
