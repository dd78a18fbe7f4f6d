import Cascade.Output.Rules

/-!
# Texts of flat rules

The text of flat rules holds their preludes, the braces around their bodies and their
declarations, each of them once and in order, and between them nothing but gaps.  A
declaration ends with a semicolon; only the short form leaves it out, and only in front
of the brace that ends the body.

**Method.**  `marksOf` lists the parts that flat rules have, and `Lays` says that a text
is made of such parts.  The text of a rule is looked at in front of whatever is written
behind it.  Declarations that are said to end a body have to stand at the end of one
(`Ended`), for what follows them is the brace.

**Results.**
* `Ended.lays`: what is written for flat rules, at any level.
* `lays_intercalate`: the same of the rules of a stylesheet.
-/

namespace Cascade
namespace Output

/-! ## Parts of texts -/

/-- A part of the text of flat rules. -/
inductive Mark where
  /-- A prelude and the brace behind it. -/
  | opening (head : List Char)
  /-- The brace that ends a body. -/
  | closing
  /-- An at-rule without a body. -/
  | statement (head : List Char)
  | declaration (declaration : Declaration)

mutual

/-- The parts of a flat rule, in order. -/
def Flat.marks : Flat → List Mark
  | .rule head decls => .opening head :: (decls.map .declaration ++ [.closing])
  | .statement head => [.statement head]
  | .group head body => .opening head :: (marksOf body ++ [.closing])
  | .declarations decls _ => decls.map .declaration

/-- The parts of flat rules, in order. -/
def marksOf : List Flat → List Mark
  | [] => []
  | flat :: rest => flat.marks ++ marksOf rest

end

/-- What stands between parts: nothing in the short form, otherwise spaces and ends of lines. -/
def IsGap (minify : Bool) (gap : List Char) : Prop :=
  ∀ c ∈ gap, minify = false ∧ (c = ' ' ∨ c = '\n')

/-- The text is that of a declaration without a semicolon: its name, a colon, its value and, if it is
important, the mark for that. -/
inductive Declares (minify : Bool) (d : Declaration) : List Char → Prop
  | plain {gap : List Char} :
      d.important = false → IsGap minify gap →
      Declares minify d
        (escapeIdent d.name.text.toList ++ ':' :: (gap ++ valuesText minify d.value))
  | important {gap gap' : List Char} :
      d.important = true → IsGap minify gap → IsGap minify gap' →
      Declares minify d
        (escapeIdent d.name.text.toList ++
          ':' :: (gap ++ valuesText minify d.value ++ (gap' ++ "!important".toList)))

/-- The text is made of the parts, in order, with nothing but gaps between them. -/
inductive Lays (minify : Bool) : List Mark → List Char → Prop
  | nil : Lays minify [] []
  | gap {marks : List Mark} {gap text : List Char} :
      IsGap minify gap → Lays minify marks text → Lays minify marks (gap ++ text)
  | opening {marks : List Mark} {gap text : List Char} (head : List Char) :
      IsGap minify gap → Lays minify marks text →
      Lays minify (.opening head :: marks) (head ++ (gap ++ '\x7b' :: text))
  | closing {marks : List Mark} {text : List Char} :
      Lays minify marks text → Lays minify (.closing :: marks) ('\x7d' :: text)
  | statement {marks : List Mark} {text : List Char} (head : List Char) :
      Lays minify marks text → Lays minify (.statement head :: marks) (head ++ ';' :: text)
  | declaration {d : Declaration} {marks : List Mark} {written text : List Char} :
      Declares minify d written → Lays minify marks text →
      Lays minify (.declaration d :: marks) (written ++ ';' :: text)
  /-- In the short form the brace that ends the body can stand for the semicolon. -/
  | last {d : Declaration} {marks : List Mark} {written text : List Char} :
      minify = true → Declares minify d written → Lays minify (.closing :: marks) text →
      Lays minify (.declaration d :: .closing :: marks) (written ++ text)

/-- The declarations among parts, each with the preludes of the bodies around it, the outermost first.
There is no such list where a brace has no partner. -/
def enclosed (around : List (List Char)) :
    List Mark → Option (List (List (List Char) × Declaration))
  | [] => if around.isEmpty then some [] else none
  | .opening head :: marks => enclosed (around ++ [head]) marks
  | .closing :: marks => if around.isEmpty then none else enclosed around.dropLast marks
  | .statement _ :: marks => enclosed around marks
  | .declaration d :: marks => (enclosed around marks).map ((around, d) :: ·)

/-- Behind a body its prelude is around no more. -/
theorem enclosed_closing (around : List (List Char)) (head : List Char) (marks : List Mark) :
    enclosed (around ++ [head]) (.closing :: marks) = enclosed around marks := by
  simp [enclosed]

theorem enclosed_declarations (around : List (List Char)) (decls : List Declaration)
    (marks : List Mark) :
    enclosed around (decls.map .declaration ++ marks) =
      (enclosed around marks).map (decls.map (around, ·) ++ ·) := by
  induction decls with
  | nil => simp
  | cons d ds ih =>
      rw [List.map_cons, List.cons_append, enclosed, ih, Option.map_map]
      rfl

/-! ## Gaps and declarations -/

theorem isGap_nil (minify : Bool) :
    IsGap minify [] :=
  nofun

theorem isGap_space :
    IsGap false [' '] :=
  fun _ hc => ⟨rfl, .inl (List.mem_singleton.mp hc)⟩

theorem isGap_indentText (style : Style) (level : Nat) :
    IsGap style.minify (indentText style level) := by
  unfold indentText
  cases hminify : style.minify with
  | true => exact isGap_nil true
  | false => exact fun _ hc => ⟨rfl, .inl (List.eq_of_mem_replicate hc)⟩

theorem isGap_lineEnd (style : Style) :
    IsGap style.minify (lineEnd style) := by
  unfold lineEnd
  cases hminify : style.minify with
  | true => exact isGap_nil true
  | false => exact fun _ hc => ⟨rfl, .inr (List.mem_singleton.mp hc)⟩

theorem declares_declarationText (minify : Bool) (d : Declaration) :
    Declares minify d (declarationText minify d) := by
  have hgap : IsGap minify (if minify then [] else [' ']) := by
    cases minify with
    | true => exact isGap_nil true
    | false => exact isGap_space
  have hcolon : (if minify then [':'] else [':', ' ']) =
      ':' :: (if minify then [] else [' ']) := by
    cases minify <;> rfl
  cases himportant : d.important with
  | false =>
      have htext : declarationText minify d = escapeIdent d.name.text.toList ++
          ':' :: ((if minify then [] else [' ']) ++ valuesText minify d.value) := by
        simp [declarationText, hcolon, himportant]
      exact htext ▸ .plain himportant hgap
  | true =>
      have htext : declarationText minify d = escapeIdent d.name.text.toList ++
          ':' :: ((if minify then [] else [' ']) ++ valuesText minify d.value ++
            ((if minify then [] else [' ']) ++ "!important".toList)) := by
        simp [declarationText, hcolon, himportant]
      exact htext ▸ .important himportant hgap hgap

namespace Lays

variable {style : Style} {marks : List Mark} {text : List Char}

theorem openText (h : Lays style.minify marks text) (level : Nat) (head : List Char) :
    Lays style.minify (.opening head :: marks) (Output.openText style level head ++ text) := by
  have hindent := isGap_indentText style level
  cases hminify : style.minify with
  | true =>
      rw [hminify] at h hindent
      have htext : Output.openText style level head ++ text =
          indentText style level ++ (head ++ ([] ++ '\x7b' :: text)) := by
        simp [Output.openText, hminify]
      exact htext ▸ .gap hindent (.opening head (isGap_nil true) h)
  | false =>
      rw [hminify] at h hindent
      have hend : IsGap false ['\n'] := fun _ hc => ⟨rfl, .inr (List.mem_singleton.mp hc)⟩
      have htext : Output.openText style level head ++ text =
          indentText style level ++ (head ++ ([' '] ++ '\x7b' :: (['\n'] ++ text))) := by
        simp [Output.openText, hminify]
      exact htext ▸ .gap hindent (.opening head isGap_space (.gap hend h))

theorem closeText (h : Lays style.minify marks text) (level : Nat) :
    Lays style.minify (.closing :: marks) (Output.closeText style level ++ text) := by
  have htext : Output.closeText style level ++ text =
      indentText style level ++ '\x7d' :: (lineEnd style ++ text) := by
    simp [Output.closeText]
  exact htext ▸ .gap (isGap_indentText style level) (.closing (.gap (isGap_lineEnd style) h))

theorem statementText (h : Lays style.minify marks text) (level : Nat) (head : List Char) :
    Lays style.minify (.statement head :: marks)
      (flatText style level (.statement head) ++ text) := by
  have htext : flatText style level (.statement head) ++ text =
      indentText style level ++ (head ++ ';' :: (lineEnd style ++ text)) := by
    simp [flatText]
  exact htext ▸ .gap (isGap_indentText style level) (.statement head (.gap (isGap_lineEnd style) h))

/-- Declarations are written in their order; behind those that end a body stands its brace. -/
theorem declarationsText (h : Lays style.minify marks text) (level : Nat) (last : Bool)
    (hlast : last = true → ∃ behind, marks = .closing :: behind) (decls : List Declaration) :
    Lays style.minify (decls.map .declaration ++ marks)
      (Output.declarationsText style level last decls ++ text) := by
  induction decls with
  | nil => exact h
  | cons d ds ih =>
      have hdeclares := declares_declarationText style.minify d
      have hrest := ih.gap (isGap_lineEnd style)
      have hindent := isGap_indentText style level
      by_cases hdropped : (style.minify && last && ds.isEmpty) = true
      · obtain ⟨⟨hminify, rfl⟩, hds⟩ : (style.minify = true ∧ last = true) ∧ ds.isEmpty = true := by
          simpa only [Bool.and_eq_true] using hdropped
        obtain rfl := List.isEmpty_iff.mp hds
        obtain ⟨behind, rfl⟩ := hlast rfl
        have htext : Output.declarationsText style level true [d] ++ text =
            indentText style level ++ (declarationText style.minify d ++
              (lineEnd style ++ (Output.declarationsText style level true [] ++ text))) := by
          simp [Output.declarationsText, hminify]
        exact htext ▸ .gap hindent (.last hminify hdeclares hrest)
      · have htext : Output.declarationsText style level last (d :: ds) ++ text =
            indentText style level ++ (declarationText style.minify d ++
              ';' :: (lineEnd style ++ (Output.declarationsText style level last ds ++ text))) := by
          rw [Output.declarationsText, if_neg hdropped]
          simp
        exact htext ▸ .gap hindent (.declaration hdeclares hrest)

end Lays

/-! ## Flat rules -/

/-- Declarations that are said to end a body stand at the end of one; those that are given need not be
the rules of a whole stylesheet, but may be a body themselves. -/
inductive Ended : Bool → List Flat → Prop
  | nil {isBody : Bool} : Ended isBody []
  | rule {isBody : Bool} {rest : List Flat} (head : List Char) (decls : List Declaration) :
      Ended isBody rest → Ended isBody (.rule head decls :: rest)
  | statement {isBody : Bool} {rest : List Flat} (head : List Char) :
      Ended isBody rest → Ended isBody (.statement head :: rest)
  | group {isBody : Bool} {body rest : List Flat} (head : List Char) :
      Ended true body → Ended isBody rest → Ended isBody (.group head body :: rest)
  | declarations {isBody : Bool} {rest : List Flat} (decls : List Declaration) :
      Ended isBody rest → Ended isBody (.declarations decls false :: rest)
  | last (decls : List Declaration) : Ended true [.declarations decls true]

namespace Ended

theorem append {isBody : Bool} {xs ys : List Flat} (hxs : Ended false xs) (hys : Ended isBody ys) :
    Ended isBody (xs ++ ys) := by
  obtain ⟨front, hfront⟩ : ∃ front, front = false := ⟨false, rfl⟩
  rw [← hfront] at hxs
  induction hxs with
  | nil => exact hys
  | rule head decls _ ih => exact .rule head decls (ih hfront)
  | statement head _ ih => exact .statement head (ih hfront)
  | group head hbody _ _ ih => exact .group head hbody (ih hfront)
  | declarations decls _ ih => exact .declarations decls (ih hfront)
  | last => cases hfront

/-- Rules of a stylesheet can stand in a body as well. -/
theorem body {xs : List Flat} (h : Ended false xs) :
    Ended true xs := by
  have hxs : Ended true (xs ++ []) := h.append .nil
  rwa [List.append_nil] at hxs

/-- The text of flat rules holds their parts, in front of whatever is written behind them.  Behind a
body this is its brace. -/
theorem lays {isBody : Bool} {flats : List Flat} (h : Ended isBody flats) {style : Style}
    {marks : List Mark} {text : List Char} (hbehind : Lays style.minify marks text)
    (hbrace : isBody = true → ∃ behind, marks = .closing :: behind) (level : Nat) :
    Lays style.minify (marksOf flats ++ marks) (flatsText style level flats ++ text) := by
  induction h generalizing marks text level with
  | nil => exact hbehind
  | @rule isBody rest head decls _ ih =>
      have hrest := ih hbehind hbrace level
      have hinside := (hrest.closeText level).declarationsText (level + 1) true (fun _ => ⟨_, rfl⟩) decls
      have hrule := hinside.openText level head
      rw [marksOf, Flat.marks, flatsText, flatText]
      simpa using hrule
  | @statement isBody rest head _ ih =>
      have hstatement := (ih hbehind hbrace level).statementText level head
      rw [marksOf, Flat.marks, flatsText, List.append_assoc, List.append_assoc]
      exact hstatement
  | @group isBody body rest head _ _ ihbody ih =>
      have hrest := ih hbehind hbrace level
      have hinside := ihbody (hrest.closeText level) (fun _ => ⟨_, rfl⟩) (level + 1)
      have hgroup := hinside.openText level head
      rw [marksOf, Flat.marks, flatsText, flatText]
      simpa using hgroup
  | @declarations isBody rest decls _ ih =>
      have hrest := ih hbehind hbrace level
      have hdecls := hrest.declarationsText level false nofun decls
      rw [marksOf, Flat.marks, flatsText, flatText, List.append_assoc, List.append_assoc]
      exact hdecls
  | last decls =>
      have hdecls := hbehind.declarationsText level true (fun _ => hbrace rfl) decls
      rw [marksOf, Flat.marks, flatsText, flatText, marksOf, flatsText, List.append_nil,
        List.append_nil]
      exact hdecls

end Ended

/-- Each of the rules ends its bodies, and so do those behind it. -/
theorem Ended.of_cons {flat : Flat} {rest : List Flat} (h : Ended false (flat :: rest)) :
    Ended false [flat] ∧ Ended false rest := by
  cases h with
  | rule head decls hrest => exact ⟨.rule head decls .nil, hrest⟩
  | statement head hrest => exact ⟨.statement head .nil, hrest⟩
  | group head hbody hrest => exact ⟨.group head hbody .nil, hrest⟩
  | declarations decls hrest => exact ⟨.declarations decls .nil, hrest⟩

/-- So it is with the rules of a stylesheet, between which lines end. -/
theorem lays_intercalate (style : Style) {flats : List Flat} (h : Ended false flats) :
    Lays style.minify (marksOf flats)
      ((lineEnd style).intercalate (flats.map (flatText style 0))) := by
  induction flats with
  | nil => exact .nil
  | cons flat rest ih =>
      obtain ⟨hflat, hrest⟩ := h.of_cons
      obtain ⟨gap, hgap, htext⟩ : ∃ gap, IsGap style.minify gap ∧
          (lineEnd style).intercalate ((flat :: rest).map (flatText style 0)) =
            flatText style 0 flat ++
              (gap ++ (lineEnd style).intercalate (rest.map (flatText style 0))) := by
        cases rest with
        | nil => exact ⟨[], isGap_nil _, by simp [List.intercalate]⟩
        | cons next rest => exact ⟨lineEnd style, isGap_lineEnd style, by simp [List.intercalate]⟩
      have hlays := hflat.lays (.gap hgap (ih hrest)) nofun 0
      rw [flatsText, flatsText, marksOf, marksOf, List.append_nil, List.append_nil] at hlays
      rw [htext, marksOf]
      exact hlays

end Output
end Cascade
