import Cascade.Proofs.Grouping
import Cascade.Proofs.Importance
import Cascade.Proofs.WrittenSelectors

/-!
# What is read does not depend on places

Tokens that differ in their places only are read alike: they make up groups that differ
in places only, and these are written alike, split in the same way at the mark of an
important declaration, and parsed to selectors that are written alike.

**Method.**  A value without places (`Value.bare`) is told apart from the value by no test
and has the same text, so both sides are compared without places (`Resemble`).

**Results.**
* `Grouped.exists_resembling`: tokens that are the same make up groups that resemble each
  other.
* `exists_splitImportant_resembling`: groups that resemble each other are split alike.
* `exists_selectorList_resembling`: they write selectors that are the same.
-/

namespace Cascade
open Output

/-! ## Values without places -/

mutual

/-- The value without places. -/
def Value.bare : Value → Value
  | .token t => .token t.unplaced
  | .block opener contents closer =>
      .block opener.unplaced (bareValues contents) (closer.map Token.unplaced)
  | .call name args commas closer =>
      .call name.unplaced (bareArguments args) (commas.map Token.unplaced) (closer.map Token.unplaced)
  | .reference dollar name => .reference dollar.unplaced name.unplaced

/-- The values without places. -/
def bareValues : List Value → List Value
  | [] => []
  | v :: vs => v.bare :: bareValues vs

/-- The arguments without places. -/
def bareArguments : List (List Value) → List (List Value)
  | [] => []
  | arg :: args => bareValues arg :: bareArguments args

end

theorem bareValues_eq_map (vs : List Value) :
    bareValues vs = vs.map Value.bare := by
  induction vs with
  | nil => rw [bareValues, List.map_nil]
  | cons v vs ih => rw [bareValues, List.map_cons, ih]

theorem bareArguments_eq_map (args : List (List Value)) :
    bareArguments args = args.map (List.map Value.bare) := by
  induction args with
  | nil => rw [bareArguments, List.map_nil]
  | cons arg args ih => rw [bareArguments, List.map_cons, ih, bareValues_eq_map]

namespace Value

@[simp] theorem hasType_bare (v : Value) (type : TokenType) :
    v.bare.hasType type = v.hasType type := by
  cases v <;> simp [bare, hasType, Token.unplaced]

@[simp] theorem isDelim_bare (v : Value) (text : String) :
    v.bare.isDelim text = v.isDelim text := by
  cases v <;> simp [bare, isDelim, Token.isDelim, Token.unplaced]

@[simp] theorem isWhitespace_bare (v : Value) :
    v.bare.isWhitespace = v.isWhitespace :=
  v.hasType_bare .whitespace

@[simp] theorem isImportantKeyword_bare (v : Value) :
    isImportantKeyword v.bare = isImportantKeyword v := by
  cases v <;> simp [bare, isImportantKeyword, Token.unplaced]

theorem firstToken_bare (v : Value) :
    v.bare.firstToken = v.firstToken.unplaced := by
  cases v <;> simp [bare, firstToken]

theorem firstType_of_bare {v w : Value} (h : v.bare = w.bare) :
    v.firstToken.type = w.firstToken.type := by
  have htokens := congrArg (·.firstToken.type) h
  simpa only [firstToken_bare, Token.unplaced] using htokens

end Value

/-! ## Their text -/

section Texts

variable (minify : Bool)

@[simp] theorem tokenText_unplaced (t : Token) :
    tokenText minify t.unplaced = tokenText minify t :=
  rfl

theorem needsSpace_bare (v w : Value) :
    needsSpace v.bare w.bare = needsSpace v w := by
  have hparen : startsParen w.bare = startsParen w := by
    cases w <;> simp [Value.bare, startsParen, Value.hasType, Token.unplaced]
  have hword : endsWord v.bare = endsWord v := by
    cases v <;> simp [Value.bare, endsWord, Token.unplaced]
  simp [needsSpace, opensRun, endsRun, hparen, hword]

theorem keepsSpace_bare (before : Option Value) (vs : List Value) :
    keepsSpace minify (before.map Value.bare) (vs.map Value.bare) = keepsSpace minify before vs := by
  have hfind : (vs.map Value.bare).find? (fun v => !v.isWhitespace) =
      (vs.find? fun v => !v.isWhitespace).map Value.bare := by
    rw [List.find?_map]
    simp
  unfold keepsSpace
  rw [hfind]
  cases before <;> cases vs.find? fun v => !v.isWhitespace <;> simp [needsSpace_bare]

theorem argumentsText_cons_cons (arg next : List Value) (args : List (List Value)) :
    argumentsText minify (arg :: next :: args) =
      valuesAfter minify none arg ++ (if minify then [','] else [',', ' ']) ++
        argumentsText minify (next :: args) := by
  rw [argumentsText]
  simp

mutual

theorem valueText_bare : (v : Value) → valueText minify v.bare = valueText minify v
  | .token t => by rw [Value.bare, valueText, valueText, tokenText_unplaced]
  | .block opener contents closer => by
      have hcontents := valuesAfter_bare none contents
      rw [Value.bare, valueText, valueText]
      exact congrArg (opener.text.toList ++ · ++ closerText opener.type) hcontents
  | .call name args commas closer => by
      rw [Value.bare, valueText, valueText, argumentsText_bare args]
      rfl
  | .reference dollar name => by rw [Value.bare, valueText, valueText]

theorem valuesAfter_bare : (before : Option Value) → (vs : List Value) →
    valuesAfter minify (before.map Value.bare) (bareValues vs) = valuesAfter minify before vs
  | _, [] => by rw [bareValues, valuesAfter, valuesAfter]
  | before, v :: vs => by
      have hsame := valuesAfter_bare before vs
      have hbehind := valuesAfter_bare (some v) vs
      rw [Option.map_some] at hbehind
      rw [bareValues, valuesAfter, valuesAfter, v.isWhitespace_bare, hsame, hbehind,
        valueText_bare v, bareValues_eq_map, keepsSpace_bare]

theorem argumentsText_bare : (args : List (List Value)) →
    argumentsText minify (bareArguments args) = argumentsText minify args
  | [] => by rw [bareArguments]
  | [arg] => by
      rw [bareArguments, bareArguments, argumentsText, argumentsText]
      exact valuesAfter_bare none arg
  | arg :: next :: args => by
      have harg := valuesAfter_bare none arg
      have hargs := argumentsText_bare (next :: args)
      rw [bareArguments] at hargs
      rw [Option.map_none] at harg
      rw [bareArguments, bareArguments, argumentsText_cons_cons, argumentsText_cons_cons, harg, hargs]

end

end Texts

/-! ## Values that differ in their places only -/

/-- The values differ in their places only. -/
def Resemble (us vs : List Value) : Prop :=
  us.map Value.bare = vs.map Value.bare

namespace Resemble

variable {us vs ws : List Value}

/-- Values that resemble each other are written alike. -/
theorem valuesText_eq (h : Resemble us vs) (minify : Bool) :
    valuesText minify us = valuesText minify vs := by
  unfold Resemble at h
  rw [← bareValues_eq_map, ← bareValues_eq_map] at h
  unfold valuesText
  rw [← valuesAfter_bare minify none us, ← valuesAfter_bare minify none vs, h]

theorem nil (h : Resemble us []) :
    us = [] :=
  List.map_eq_nil_iff.mp h

theorem cons {v : Value} (h : Resemble us (v :: vs)) :
    ∃ u us', us = u :: us' ∧ u.bare = v.bare ∧ Resemble us' vs := by
  obtain ⟨u, us', rfl, hu, hus'⟩ := List.map_eq_cons_iff.mp h
  exact ⟨u, us', rfl, hu, hus'⟩

theorem append (h : Resemble us (vs ++ ws)) :
    ∃ us₁ us₂, us = us₁ ++ us₂ ∧ Resemble us₁ vs ∧ Resemble us₂ ws := by
  unfold Resemble at h
  rw [List.map_append] at h
  obtain ⟨us₁, us₂, rfl, h₁, h₂⟩ := List.map_eq_append_iff.mp h
  exact ⟨us₁, us₂, rfl, h₁, h₂⟩

theorem token {t : Token} (h : Resemble us (.token t :: vs)) :
    ∃ u us', us = .token u :: us' ∧ u.unplaced = t.unplaced ∧ Resemble us' vs := by
  obtain ⟨u, us', rfl, hu, hus'⟩ := h.cons
  cases u with
  | token u =>
      rw [Value.bare, Value.bare] at hu
      exact ⟨u, us', rfl, Value.token.inj hu, hus'⟩
  | block | call | reference => simp [Value.bare] at hu

/-- Values that resemble tokens are tokens. -/
theorem tokens {ts : List Token} (h : Resemble us (ts.map .token)) :
    ∃ us', us = us'.map .token ∧ SameTokens us' ts := by
  induction ts generalizing us with
  | nil => exact ⟨[], h.nil, rfl⟩
  | cons t ts ih =>
      obtain ⟨u, us, rfl, hu, hus⟩ := h.token
      obtain ⟨us', rfl, hus'⟩ := ih hus
      exact ⟨u :: us', rfl, by simpa [SameTokens, hu] using hus'⟩

theorem forall_of_bare {p : Value → Prop} (hp : ∀ v : Value, p v.bare ↔ p v) (h : Resemble us vs)
    (hvs : ∀ v ∈ vs, p v) :
    ∀ u ∈ us, p u := by
  intro u hu
  obtain ⟨v, hv, hsame⟩ := List.mem_map.mp (h ▸ List.mem_map_of_mem hu : u.bare ∈ vs.map Value.bare)
  rw [← hp, ← hsame, hp]
  exact hvs v hv

end Resemble

/-! ## Groups of the same tokens -/

namespace Read.CallState

/-- The arguments without places. -/
def bare (s : CallState) : CallState :=
  ⟨s.finished.map (List.map Value.bare), s.commas.map Token.unplaced, s.current.map Value.bare⟩

theorem bare_add (s : CallState) (v : Value) :
    (s.add v).bare = s.bare.add v.bare := by
  unfold add
  rw [v.hasType_bare]
  split
  · next hcomma =>
      cases v with
      | token t => simp [separate, bare, Value.bare, Value.witness]
      | block | call | reference => cases hcomma
  · simp [push, bare]

theorem bare_foldl (vs : List Value) (s : CallState) :
    (vs.foldl add s).bare = (vs.map Value.bare).foldl add s.bare := by
  induction vs generalizing s with
  | nil => rfl
  | cons v vs ih => rw [List.foldl_cons, ih, bare_add, List.map_cons, List.foldl_cons]

theorem bare_close (s : CallState) (name closer : Token) :
    (s.close name (some closer)).toValue.bare =
      (s.bare.close name.unplaced (some closer.unplaced)).toValue := by
  unfold close Call.toValue
  dsimp only
  rw [Value.bare, bareArguments_eq_map]
  congr 1
  · simp only [bare, List.isEmpty_map]
    split <;> simp
  · simp [bare]

end Read.CallState

theorem callOf_bare (name closer : Token) (vs : List Value) :
    (callOf name vs closer).bare = callOf name.unplaced (vs.map Value.bare) closer.unplaced := by
  unfold callOf
  rw [Read.CallState.bare_close, Read.CallState.bare_foldl]
  rfl

/-- Tokens that are the same make up groups that resemble each other. -/
theorem Grouped.exists_resembling {us ts : List Token} {ws : List Value} (h : Grouped ts ws)
    (hsame : SameTokens us ts) :
    ∃ vs, Grouped us vs ∧ Resemble vs ws := by
  have hclosed {us inner ts : List Token} {opener closer : Token}
      (h : SameTokens us (opener :: (inner ++ closer :: ts))) :
      ∃ opener' inner' closer' us', us = opener' :: (inner' ++ closer' :: us') ∧
        opener'.unplaced = opener.unplaced ∧ closer'.unplaced = closer.unplaced ∧
          SameTokens inner' inner ∧ SameTokens us' ts := by
    obtain ⟨opener', _, rfl, hopener, h⟩ := h.cons
    obtain ⟨inner', _, rfl, hinner, h⟩ := h.append
    obtain ⟨closer', us', rfl, hcloser, hus⟩ := h.cons
    exact ⟨opener', inner', closer', us', rfl, hopener, hcloser, hinner, hus⟩
  have hgroup {v w : Value} {vs ws : List Value} (hv : v.bare = w.bare) (hvs : Resemble vs ws) :
      Resemble (v :: vs) (w :: ws) := by
    unfold Resemble at hvs ⊢
    rw [List.map_cons, List.map_cons, hv, hvs]
  induction h generalizing us with
  | nil =>
      obtain rfl := hsame.nil
      exact ⟨[], .nil, rfl⟩
  | @single t ts ws ht hvar _ ih =>
      obtain ⟨u, us, rfl, hu, hus⟩ := hsame.cons
      obtain ⟨vs, hvs, hresemble⟩ := ih hus
      have htype := Token.type_of_unplaced hu
      have hbare : (Value.token u).bare = (Value.token t).bare := by
        rw [Value.bare, Value.bare, hu]
      refine ⟨.token u :: vs, .single ?_ (fun hdollar w hw => ?_) hvs, hgroup hbare hresemble⟩
      · exact ⟨by rw [htype, ht.opens], by rw [htype, ht.closes], by rw [htype]; exact ht.ends⟩
      · rw [Token.isDelim_of_unplaced hu] at hdollar
        cases ts with
        | nil =>
            obtain rfl := hus.nil
            cases hw
        | cons x ts =>
            obtain ⟨y, us, rfl, hy, -⟩ := hus.cons
            cases hw
            rw [Token.type_of_unplaced hy]
            exact hvar hdollar x rfl
  | @block opener closer inner ts ws ws' hpartner _ _ ihinner ih =>
      obtain ⟨opener', inner', closer', us', rfl, hopener, hcloser, hinner, hus⟩ := hclosed hsame
      obtain ⟨vs, hvs, hinside⟩ := ihinner hinner
      obtain ⟨vs', hvs', hbehind⟩ := ih hus
      refine ⟨_, .block ?_ hvs hvs', hgroup ?_ hbehind⟩
      · rw [Token.type_of_unplaced hopener, hpartner, Token.type_of_unplaced hcloser]
      · unfold Resemble at hinside
        rw [Value.bare, Value.bare, bareValues_eq_map, bareValues_eq_map, hinside, hopener,
          Option.map_some, Option.map_some, hcloser]
  | @call name closer inner ts ws ws' hname hparen _ _ ihinner ih =>
      obtain ⟨name', inner', closer', us', rfl, hname', hcloser, hinner, hus⟩ := hclosed hsame
      obtain ⟨vs, hvs, hinside⟩ := ihinner hinner
      obtain ⟨vs', hvs', hbehind⟩ := ih hus
      refine ⟨_, .call ?_ ?_ hvs hvs', hgroup ?_ hbehind⟩
      · rw [Token.type_of_unplaced hname', hname]
      · rw [Token.type_of_unplaced hcloser, hparen]
      · unfold Resemble at hinside
        rw [callOf_bare, callOf_bare, hname', hinside, hcloser]

/-! ## Importance -/

section Importance

variable {us vs ws : List Value}

theorem map_bare_dropWhile (vs : List Value) :
    (vs.dropWhile Value.isWhitespace).map Value.bare =
      (vs.map Value.bare).dropWhile Value.isWhitespace := by
  have hcomp : Value.isWhitespace ∘ Value.bare = Value.isWhitespace :=
    funext Value.isWhitespace_bare
  rw [List.dropWhile_map, hcomp]

theorem map_bare_trimWhitespace (vs : List Value) :
    (trimWhitespace vs).map Value.bare = trimWhitespace (vs.map Value.bare) := by
  unfold trimWhitespace
  rw [List.map_reverse, map_bare_dropWhile, List.map_reverse, map_bare_dropWhile]

theorem Resemble.dropWhile (h : Resemble us vs) :
    Resemble (us.dropWhile Value.isWhitespace) (vs.dropWhile Value.isWhitespace) := by
  unfold Resemble at h ⊢
  rw [map_bare_dropWhile, map_bare_dropWhile, h]

theorem Resemble.trimWhitespace (h : Resemble us vs) :
    Resemble (trimWhitespace us) (trimWhitespace vs) := by
  unfold Resemble at h ⊢
  rw [map_bare_trimWhitespace, map_bare_trimWhitespace, h]

theorem stripImportant?_bare (vs : List Value) :
    stripImportant? (vs.map Value.bare) = (stripImportant? vs).map (List.map Value.bare) := by
  unfold stripImportant?
  rw [← List.map_reverse, ← map_bare_dropWhile]
  cases vs.reverse.dropWhile Value.isWhitespace with
  | nil => rfl
  | cons keyword before =>
      simp only [List.map_cons, Value.isImportantKeyword_bare, ← map_bare_dropWhile]
      split
      · cases before.dropWhile Value.isWhitespace with
        | nil => rfl
        | cons bang values =>
            simp only [List.map_cons, Value.isDelim_bare]
            split
            · rw [Option.map_some, map_bare_trimWhitespace, List.map_reverse]
            · rfl
      · rfl

theorem Grouped.isWhole {ts : List Token} (h : Grouped ts vs) :
    ∀ v ∈ vs, v.IsWhole := by
  induction h with
  | nil => exact List.forall_mem_nil _
  | single ht _ _ ih => exact List.forall_mem_cons.mpr ⟨ht.opens, ih⟩
  | block _ _ _ _ ih => exact List.forall_mem_cons.mpr ⟨trivial, ih⟩
  | call _ _ _ _ _ ih => exact List.forall_mem_cons.mpr ⟨trivial, ih⟩

/-- Groups that resemble each other are split in the same way. -/
theorem exists_splitImportant_resembling (h : Resemble us vs) (hus : ∀ u ∈ us, u.IsWhole)
    (hvs : ∀ v ∈ vs, v.IsWhole) {value : List Value} {important : Bool}
    (hsplit : splitImportant (trimWhitespace vs) = .ok (value, important)) :
    ∃ value', splitImportant (trimWhitespace us) = .ok (value', important) ∧ Resemble value' value := by
  have hstrip {ws : List Value} (hws : ∀ w ∈ ws, w.IsWhole) : splitImportant (trimWhitespace ws) =
      .ok ((stripImportant? (trimWhitespace ws)).elim (trimWhitespace ws, false)
        fun value => (value, true)) := by
    have hvisible := endsVisible_trimWhitespace ws
    rw [splitImportant_eq_search (fun w hw => hws w (mem_of_mem_trimWhitespace hw)) hvisible,
      searchImportant_eq hvisible]
  rw [hstrip hvs] at hsplit
  rw [hstrip hus]
  have hboth : (stripImportant? (trimWhitespace us)).map (List.map Value.bare) =
      (stripImportant? (trimWhitespace vs)).map (List.map Value.bare) := by
    rw [← stripImportant?_bare, ← stripImportant?_bare]
    exact congrArg stripImportant? h.trimWhitespace
  generalize stripImportant? (trimWhitespace us) = found at hboth
  generalize stripImportant? (trimWhitespace vs) = found' at hboth hsplit
  cases found with
  | none =>
      cases found' with
      | none =>
          cases hsplit
          exact ⟨_, rfl, h.trimWhitespace⟩
      | some value => cases hboth
  | some value =>
      cases found' with
      | none => cases hboth
      | some value' =>
          cases hsplit
          exact ⟨value, rfl, Option.some.inj hboth⟩

end Importance

end Cascade
