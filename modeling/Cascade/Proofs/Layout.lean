import Cascade.Output.Rules
import Cascade.Proofs.Faults
import Cascade.Proofs.Outcomes

/-!
# Laying stylesheets flat

Which stylesheets can be written.  A keyframe is written as a prelude with
declarations, and it is the only place where reading lets through an entry that
writing does not take.

**Method.**  `Fails` is the failure of a step of writing, and two steps fail when one
of them does (`fails_bind`).  Over the shape of trees that reading gives
(`Entry.Shaped`), an entry fails exactly when a keyframe in it is mixed.  The
selectors around an entry are followed down the tree (`Visits`), as laying flat does:
each rule that is visited is laid flat in the selectors that it is visited in, and what
comes of it stands in the result (`Visits.exists_among`), where no other rule has a
prelude and declarations (`Visits.exists_of_among`).  The texts of the selectors are
never empty, and so neither is the text that a reference to the parent stands for.

**Results.**
* `fails_flatten`: an entry cannot be laid flat iff a keyframe in it is mixed.
* `flattenRules_eq`, `Visits.exists_among`, `Visits.exists_of_among`: which rules are laid
  flat, in which selectors.
* `Visits.sound`: no selector around an entry has an empty text.
* `Sheet.formatRules_error_iff`: both, of whole stylesheets.
-/

namespace Cascade
namespace Entry

/-! ## Parts of entries -/

/-- The entries in the body of an entry. -/
def body : Entry → List Entry
  | .style _ _ body => body
  | .group _ _ _ body _ => body
  | .keyframe _ _ body _ => body
  | _ => []

theorem sizeOf_lt_of_mem_body {e x : Entry} (h : x ∈ e.body) :
    sizeOf x < sizeOf e := by
  cases e <;> simp only [body, List.not_mem_nil] at h
  all_goals
    have hlt := List.sizeOf_lt_of_mem h
    simp only [style.sizeOf_spec, group.sizeOf_spec, keyframe.sizeOf_spec]
    omega

/-- What holds of an entry whenever it holds of those in its body holds of every entry. -/
theorem induction_body {motive : Entry → Prop}
    (h : ∀ e, (∀ x ∈ e.body, motive x) → motive e) (e : Entry) :
    motive e :=
  h e fun x hx =>
    have := sizeOf_lt_of_mem_body hx
    induction_body h x
termination_by sizeOf e

/-- The entry is the other one, or stands in a body of it at some depth. -/
inductive PartOf (e : Entry) : Entry → Prop
  | self : PartOf e e
  | inside {x y : Entry} : PartOf e x → x ∈ y.body → PartOf e y

theorem PartOf.trans {a b c : Entry} (hab : PartOf a b) (hbc : PartOf b c) :
    PartOf a c := by
  induction hbc with
  | self => exact hab
  | inside _ hmem ih => exact .inside ih hmem

/-- The entry is a keyframe that holds an entry other than a declaration. -/
def IsMixedKeyframe : Entry → Prop
  | .keyframe _ _ body _ => ∃ x ∈ body, x.isDeclaration = false
  | _ => False

/-- A part of the entry is a mixed keyframe. -/
def HasMixedKeyframe (e : Entry) : Prop :=
  ∃ frame, IsMixedKeyframe frame ∧ PartOf frame e

/-- A part of the entry is a keyframes rule with a mixed keyframe in its body. -/
def HasMixedKeyframesRule (e : Entry) : Prop :=
  ∃ name prelude opener body closer, PartOf (.group name prelude opener body closer) e ∧
    BodyKind.ofName name.text = .keyframes ∧ ∃ frame ∈ body, IsMixedKeyframe frame

theorem hasMixedKeyframe_iff {e : Entry} :
    HasMixedKeyframe e ↔ IsMixedKeyframe e ∨ ∃ x ∈ e.body, HasMixedKeyframe x := by
  constructor
  · rintro ⟨frame, hmixed, hpart⟩
    cases hpart with
    | self => exact .inl hmixed
    | inside hx hmem => exact .inr ⟨_, hmem, frame, hmixed, hx⟩
  · rintro (hmixed | ⟨x, hmem, frame, hmixed, hx⟩)
    · exact ⟨e, hmixed, .self⟩
    · exact ⟨frame, hmixed, .inside hx hmem⟩

theorem hasMixedKeyframe_iff_body {e : Entry} (h : ¬ IsMixedKeyframe e) :
    HasMixedKeyframe e ↔ ∃ x ∈ e.body, HasMixedKeyframe x :=
  hasMixedKeyframe_iff.trans (or_iff_right h)

theorem not_hasMixedKeyframe_declaration (d : Declaration) :
    ¬ HasMixedKeyframe (.declaration d) := by
  rw [hasMixedKeyframe_iff_body id]
  rintro ⟨x, hmem, -⟩
  cases hmem

theorem HasMixedKeyframe.isRule {e : Entry} (h : HasMixedKeyframe e) :
    e.isDeclaration = false := by
  cases e with
  | declaration d => exact absurd h (not_hasMixedKeyframe_declaration d)
  | _ => rfl

/-- A keyframe inside a keyframe makes the outer one mixed. -/
theorem hasMixedKeyframe_keyframe {prelude : List Value} {opener : Token} {body : List Entry}
    {closer : Option Token} :
    HasMixedKeyframe (.keyframe prelude opener body closer) ↔
      ∃ x ∈ body, x.isDeclaration = false := by
  rw [hasMixedKeyframe_iff]
  refine ⟨?_, .inl⟩
  rintro (hmixed | ⟨x, hmem, hx⟩)
  · exact hmixed
  · exact ⟨x, hmem, hx.isRule⟩

/-- A mixed keyframe stands in the body of a keyframes rule, unless it is the entry itself. -/
theorem Shaped.mixed_cases {S : ComplexSelector → Prop} {inKeyframes : Bool} {e : Entry}
    (h : Shaped S inKeyframes e) (hmixed : HasMixedKeyframe e) :
    (inKeyframes = true ∧ IsMixedKeyframe e) ∨ HasMixedKeyframesRule e := by
  induction h with
  | declaration d => exact absurd hmixed (not_hasMixedKeyframe_declaration d)
  | style _ _ ih =>
      obtain ⟨x, hmem, hx⟩ := (hasMixedKeyframe_iff_body id).mp hmixed
      obtain ⟨⟨⟩, -⟩ | ⟨name, prelude, opener, body, closer, hpart, hrule⟩ := ih x hmem hx
      exact .inr ⟨name, prelude, opener, body, closer, .inside hpart hmem, hrule⟩
  | statement =>
      obtain ⟨x, hmem, -⟩ := (hasMixedKeyframe_iff_body id).mp hmixed
      cases hmem
  | group _ ih =>
      obtain ⟨x, hmem, hx⟩ := (hasMixedKeyframe_iff_body id).mp hmixed
      rcases ih x hmem hx with ⟨hkind, hframe⟩ | ⟨name, prelude, opener, body, closer, hpart, hrule⟩
      · exact .inr ⟨_, _, _, _, _, .self, of_decide_eq_true hkind, x, hmem, hframe⟩
      · exact .inr ⟨name, prelude, opener, body, closer, .inside hpart hmem, hrule⟩
  | keyframe => exact .inl ⟨rfl, hasMixedKeyframe_keyframe.mp hmixed⟩

theorem Shaped.hasMixedKeyframe_iff_rule {S : ComplexSelector → Prop} {e : Entry}
    (h : Shaped S false e) :
    HasMixedKeyframe e ↔ HasMixedKeyframesRule e := by
  constructor
  · intro hmixed
    obtain ⟨⟨⟩, -⟩ | hrule := h.mixed_cases hmixed
    exact hrule
  · rintro ⟨name, prelude, opener, body, closer, hpart, -, frame, hmem, hframe⟩
    have hinside : PartOf frame (.group name prelude opener body closer) := .inside .self hmem
    exact ⟨frame, hframe, hinside.trans hpart⟩

end Entry

namespace Output

/-! ## Failing -/

/-- The step has no result. -/
def Fails {ε α : Type} (x : Except ε α) : Prop :=
  ∃ e, x = .error e

section Fails

variable {ε α β : Type}

theorem fails_error (e : ε) :
    Fails (.error e : Except ε α) :=
  ⟨e, rfl⟩

theorem not_fails_ok (a : α) :
    ¬ Fails (.ok a : Except ε α) := by
  rintro ⟨_, ⟨⟩⟩

theorem not_fails_iff {x : Except ε α} :
    ¬ Fails x ↔ ∃ a, x = .ok a := by
  cases x with
  | error e => exact iff_of_false (fun h => h (fails_error e)) (by rintro ⟨_, ⟨⟩⟩)
  | ok a => exact iff_of_true (not_fails_ok a) ⟨a, rfl⟩

/-- Two steps fail if the first does, or if the second does whatever the first gives. -/
theorem fails_bind {x : Except ε α} {f : α → Except ε β} {p : Prop} (hf : ∀ a, Fails (f a) ↔ p) :
    Fails (x >>= f) ↔ Fails x ∨ p := by
  cases x with
  | error e => exact iff_of_true (fails_error e) (.inl (fails_error e))
  | ok a => exact (hf a).trans (or_iff_right (not_fails_ok a)).symm

theorem fails_bind_of_not {x : Except ε α} {f : α → Except ε β} (hf : ∀ a, ¬ Fails (f a)) :
    Fails (x >>= f) ↔ Fails x := by
  rw [fails_bind fun a => iff_false_intro (hf a), or_false]

theorem fails_bind_pure {x : Except ε α} {f : α → β} :
    Fails (x >>= fun a => pure (f a)) ↔ Fails x :=
  fails_bind_of_not fun a => not_fails_ok (f a)

theorem fails_map {x : Except ε α} {f : α → β} :
    Fails (x.map f) ↔ Fails x := by
  cases x with
  | error e => exact iff_of_true (fails_error e) (fails_error e)
  | ok a => exact iff_of_false (not_fails_ok (f a)) (not_fails_ok a)

theorem fails_mapM {f : α → Except ε β} {xs : List α} :
    Fails (xs.mapM f) ↔ ∃ x ∈ xs, Fails (f x) := by
  induction xs with
  | nil => exact iff_of_false (not_fails_ok []) (by simp)
  | cons x xs ih =>
      rw [List.mapM_cons, fails_bind fun _ => fails_bind_pure, ih]
      simp

end Fails

/-! ## Laying entries flat -/

/-- The step over a rule in front of others, in each of the two ways to lay a body flat. -/
theorem flattenRules_cons {e : Entry} (hrule : e.isDeclaration = false) (minify : Bool)
    (parents : List (List Char)) (rest : List Entry) :
    flattenRules minify parents (e :: rest) = do
      return (← flatten minify parents e) ++ (← flattenRules minify parents rest) := by
  cases e with
  | declaration d => cases hrule
  | _ => rw [flattenRules]; rintro _ ⟨⟩

theorem flattenBody_cons {e : Entry} (hrule : e.isDeclaration = false) (minify : Bool)
    (run : List Declaration) (rest : List Entry) :
    flattenBody minify run (e :: rest) = do
      let first ← flatten minify [] e
      let others ← flattenBody minify [] rest
      return (if run.isEmpty then [] else [.declarations run.reverse false]) ++ first ++ others := by
  cases e with
  | declaration d => cases hrule
  | _ => rw [flattenBody]; rintro _ ⟨⟩

/-- The rules of a body fail if one of them does. -/
theorem fails_flattenRules (minify : Bool) (parents : List (List Char)) (body : List Entry) :
    Fails (flattenRules minify parents body) ↔
      ∃ e ∈ body, e.isDeclaration = false ∧ Fails (flatten minify parents e) := by
  induction body with
  | nil => exact iff_of_false (by rw [flattenRules]; exact not_fails_ok []) (by simp)
  | cons e rest ih =>
      cases e with
      | declaration d =>
          rw [flattenRules, ih]
          simp [Entry.isDeclaration]
      | _ =>
          rw [flattenRules, fails_bind fun _ => fails_bind_pure, ih]
          · simp [Entry.isDeclaration]
          · rintro _ ⟨⟩

theorem fails_flattenBody (minify : Bool) (run : List Declaration) (body : List Entry) :
    Fails (flattenBody minify run body) ↔
      ∃ e ∈ body, e.isDeclaration = false ∧ Fails (flatten minify [] e) := by
  induction body generalizing run with
  | nil => exact iff_of_false (by rw [flattenBody]; exact not_fails_ok _) (by simp)
  | cons e rest ih =>
      cases e with
      | declaration d =>
          rw [flattenBody, ih]
          simp [Entry.isDeclaration]
      | _ =>
          rw [flattenBody, fails_bind fun _ => fails_bind_pure, ih]
          · simp [Entry.isDeclaration]
          · rintro _ ⟨⟩

/-- A style rule that has its shape holds nothing that it cannot hold. -/
theorem misplacedInStyle?_eq_none {S : ComplexSelector → Prop} {body : List Entry}
    (h : ∀ e ∈ body, e.Shaped S false) :
    misplacedInStyle? body = none := by
  refine List.find?_eq_none.mpr fun e he => ?_
  cases h e he <;> simp

theorem fails_flatten_style {minify : Bool} {parents : List (List Char)} {prelude : List Value}
    {list : SelectorList} {body : List Entry} (h : misplacedInStyle? body = none) :
    Fails (flatten minify parents (.style prelude list body)) ↔
      ∃ e ∈ body, e.isDeclaration = false ∧
        Fails (flatten minify (resolveSelectors minify parents list) e) := by
  rw [← fails_flattenRules, flatten, h]
  refine fails_bind_of_not fun nested => ?_
  split <;> exact not_fails_ok _

theorem fails_flatten_group {minify : Bool} {parents : List (List Char)} {name : Token}
    {prelude : List Value} {opener : Token} {body : List Entry} {closer : Option Token} :
    Fails (flatten minify parents (.group name prelude opener body closer)) ↔
      ∃ e ∈ body, e.isDeclaration = false ∧ Fails (flatten minify parents e) := by
  rw [flatten]
  cases parents with
  | nil => exact fails_bind_pure.trans (fails_flattenBody _ _ _)
  | cons parent others => exact fails_bind_pure.trans (fails_flattenRules _ _ _)

theorem fails_flatten_keyframe {minify : Bool} {parents : List (List Char)} {prelude : List Value}
    {opener : Token} {body : List Entry} {closer : Option Token} :
    Fails (flatten minify parents (.keyframe prelude opener body closer)) ↔
      ∃ x ∈ body, x.isDeclaration = false := by
  rw [flatten]
  split
  · next x hfind =>
      have hx := List.find?_some hfind
      refine iff_of_true (fails_error _) ⟨x, List.mem_of_find?_eq_some hfind, ?_⟩
      cases x with
      | declaration => cases hx
      | _ => rfl
  · next hfind =>
      refine iff_of_false (not_fails_ok _) ?_
      rintro ⟨x, hmem, hx⟩
      have hfree := List.find?_eq_none.mp hfind x hmem
      cases x with
      | declaration => cases hx
      | _ => exact hfree rfl

/-- An entry with the shape that reading gives cannot be laid flat iff a keyframe in it is mixed. -/
theorem fails_flatten {S : ComplexSelector → Prop} {inKeyframes : Bool} {e : Entry}
    (h : e.Shaped S inKeyframes) (hrule : e.isDeclaration = false) (minify : Bool)
    (parents : List (List Char)) :
    Fails (flatten minify parents e) ↔ e.HasMixedKeyframe := by
  -- In a body only the rules are laid flat, and no declaration holds a keyframe.
  have hbody {body : List Entry} {parents : List (List Char)}
      (ih : ∀ e ∈ body, e.isDeclaration = false → ∀ parents : List (List Char),
        Fails (flatten minify parents e) ↔ e.HasMixedKeyframe) :
      (∃ e ∈ body, e.isDeclaration = false ∧ Fails (flatten minify parents e)) ↔
        ∃ e ∈ body, e.HasMixedKeyframe := by
    refine exists_congr fun e => and_congr_right fun he => ⟨?_, fun hmixed => ?_⟩
    · rintro ⟨hrule, hfails⟩
      exact (ih e he hrule parents).mp hfails
    · exact ⟨hmixed.isRule, (ih e he hmixed.isRule parents).mpr hmixed⟩
  induction h generalizing parents with
  | declaration d => cases hrule
  | style _ hshaped ih =>
      rw [fails_flatten_style (misplacedInStyle?_eq_none hshaped), hbody ih,
        Entry.hasMixedKeyframe_iff_body id, Entry.body]
  | statement name prelude =>
      rw [Entry.hasMixedKeyframe_iff_body id, flatten]
      exact iff_of_false (not_fails_ok _) (by simp [Entry.body])
  | group _ ih =>
      rw [fails_flatten_group, hbody ih, Entry.hasMixedKeyframe_iff_body id, Entry.body]
  | keyframe => rw [fails_flatten_keyframe, Entry.hasMixedKeyframe_keyframe]

/-! ## Texts of selectors -/

/-- The token has a text if it is an identifier. -/
def IsSpelled (t : Token) : Prop :=
  t.type = .ident → t.text ≠ ""

theorem aliasClosed_isSpelled :
    AliasClosed IsSpelled :=
  ⟨fun _ => nofun, fun _ => nofun⟩

theorem typeText_ne_nil {t : TypeSelector} (h : Scan.IsIdent IsSpelled t) :
    typeText t ≠ [] := by
  cases t with
  | named q ident =>
      have htext : ident.text.toList ≠ [] := by simpa using h.1 h.2
      simp [typeText, escapeIdent_ne_nil htext]
  | universal => simp [typeText]

/-- A condition has a text, unless it is a reference to a parent without one. -/
theorem subclassText_ne_nil (minify : Bool) (parent : List Char) (atStart : Bool) {c : Subclass}
    (h : c.isNesting = true → parent ≠ []) :
    subclassText minify parent atStart c ≠ [] := by
  cases c with
  | nesting =>
      unfold subclassText nestingText
      dsimp only
      split
      · exact h rfl
      · simp
  | pseudo p =>
      rw [subclassText, pseudoText]
      split <;> simp
  | _ => simp [subclassText, attributeText]

theorem compoundText_ne_nil (minify : Bool) (parent : List Char) {c : Compound}
    (hc : Scan.IsSolid IsSpelled c) (h : c.subclasses.any Subclass.isNesting = true → parent ≠ []) :
    compoundText minify parent c ≠ [] := by
  have hnonempty := hc.nonempty
  have htype := hc.type
  obtain ⟨type, conditions, pseudos⟩ := c
  unfold compoundText
  dsimp only at htype h ⊢
  cases type with
  | some t => simp [typeText_ne_nil (htype t rfl)]
  | none =>
      cases conditions with
      | cons s rest =>
          have hs : s.isNesting = true → parent ≠ [] := fun hs => h (by simp [hs])
          simp [subclassText_ne_nil minify parent true hs]
      | nil =>
          cases pseudos with
          | nil => cases hnonempty
          | cons p rest => simp [pseudoElementText]

theorem complexText_ne_nil (minify : Bool) {parent : List Char} {s : ComplexSelector}
    (hs : s.Solid IsSpelled) (h : s.hasNesting = true → parent ≠ []) :
    complexText minify parent s ≠ [] := by
  obtain ⟨first, rest, rfl, hfirst⟩ := hs
  have htext := compoundText_ne_nil minify parent hfirst fun hnesting =>
    h (by simp [ComplexSelector.hasNesting, hnesting])
  simp [complexText, htext]

/-- The text for references to the parent in a selector inside a rule with the given selectors. -/
def referenceText (minify : Bool) (parents : List (List Char)) (s : ComplexSelector) : List Char :=
  if parents.isEmpty then ":scope".toList
  else if s.hasNesting then parentText minify parents
  else []

/-- Every selector is written with its text for references to the parent. -/
theorem resolveSelectors_eq (minify : Bool) (parents : List (List Char)) (list : SelectorList) :
    resolveSelectors minify parents list = list.flatMap fun s =>
      if parents.isEmpty || s.hasNesting then
        [complexText minify (referenceText minify parents s) s]
      else
        parents.map fun parent =>
          parent ++ ' ' :: complexText minify (referenceText minify parents s) s := by
  unfold resolveSelectors referenceText
  refine List.flatMap_congr fun s _ => ?_
  split <;> split <;> simp_all

theorem referenceText_ne_nil {minify : Bool} {parents : List (List Char)} {s : ComplexSelector}
    (hparents : ∀ p ∈ parents, p ≠ []) (hs : s.hasNesting = true) :
    referenceText minify parents s ≠ [] := by
  unfold referenceText
  rw [if_pos hs]
  match parents with
  | [] => simp
  | [parent] => exact hparents parent (List.mem_singleton_self _)
  | _ :: _ :: _ => simp [parentText]

/-- Selectors inside a rule whose selectors have texts have texts. -/
theorem resolveSelectors_ne_nil {minify : Bool} {parents : List (List Char)} {list : SelectorList}
    (hparents : ∀ p ∈ parents, p ≠ []) (hlist : ∀ s ∈ list, s.Solid IsSpelled) :
    ∀ p ∈ resolveSelectors minify parents list, p ≠ [] := by
  rw [resolveSelectors_eq]
  intro p hp
  obtain ⟨s, hs, hp⟩ := List.mem_flatMap.mp hp
  split at hp
  · obtain rfl := List.mem_singleton.mp hp
    exact complexText_ne_nil minify (hlist s hs) (referenceText_ne_nil hparents)
  · obtain ⟨parent, -, rfl⟩ := List.mem_map.mp hp
    simp

/-! ## The selectors around an entry -/

/-- Laying `top` flat comes to an entry inside a rule with the given selectors. -/
inductive Visits (minify : Bool) (top : Entry) : List (List Char) → Entry → Prop
  | top : Visits minify top [] top
  | style {parents : List (List Char)} {prelude : List Value} {list : SelectorList}
      {body : List Entry} {e : Entry} :
      Visits minify top parents (.style prelude list body) → e ∈ body →
      Visits minify top (resolveSelectors minify parents list) e
  | group {parents : List (List Char)} {name : Token} {prelude : List Value} {opener : Token}
      {body : List Entry} {closer : Option Token} {e : Entry} :
      Visits minify top parents (.group name prelude opener body closer) → e ∈ body →
      Visits minify top parents e

/-- The rules of a body. -/
def rulesOf (body : List Entry) : List Entry :=
  body.filter fun e => !e.isDeclaration

theorem mem_rulesOf {e : Entry} {body : List Entry} :
    e ∈ rulesOf body ↔ e ∈ body ∧ e.isDeclaration = false := by
  simp [rulesOf]

/-- The rules of a body are laid flat one by one, all in the same selectors. -/
theorem flattenRules_eq (minify : Bool) (parents : List (List Char)) (body : List Entry) :
    flattenRules minify parents body =
      ((rulesOf body).mapM (flatten minify parents)).map List.flatten := by
  induction body with
  | nil =>
      rw [flattenRules]
      rfl
  | cons e rest ih =>
      cases hdecl : e.isDeclaration with
      | true =>
          cases e with
          | declaration d =>
              rw [flattenRules, ih]
              rfl
          | _ => cases hdecl
      | false =>
          have hrules : rulesOf (e :: rest) = e :: rulesOf rest :=
            List.filter_cons_of_pos (by simp [hdecl])
          rw [flattenRules_cons hdecl, ih, hrules, List.mapM_cons]
          cases flatten minify parents e with
          | error m => rfl
          | ok first => cases (rulesOf rest).mapM (flatten minify parents) <;> rfl

/-- What comes of a rule of the body is a run of what comes of all. -/
theorem exists_infix_of_flattenRules {minify : Bool} {parents : List (List Char)}
    {body : List Entry} {flats : List Flat} (h : flattenRules minify parents body = .ok flats)
    {e : Entry} (he : e ∈ body) (hrule : e.isDeclaration = false) :
    ∃ part, flatten minify parents e = .ok part ∧ part <:+: flats := by
  rw [flattenRules_eq] at h
  obtain ⟨parts, hparts, rfl⟩ := Outcome.ok_of_map h
  obtain ⟨part, hpart, hflat⟩ := Outcome.exists_of_mem hparts (mem_rulesOf.mpr ⟨he, hrule⟩)
  exact ⟨part, hflat, List.infix_of_mem_flatten hpart⟩

/-- So it is in the body of an at-rule at the top level. -/
theorem exists_infix_of_flattenBody {minify : Bool} {run : List Declaration} {body : List Entry}
    {flats : List Flat} (h : flattenBody minify run body = .ok flats) {e : Entry} (he : e ∈ body)
    (hrule : e.isDeclaration = false) :
    ∃ part, flatten minify [] e = .ok part ∧ part <:+: flats := by
  induction body generalizing run flats with
  | nil => cases he
  | cons front rest ih =>
      cases hdecl : front.isDeclaration with
      | true =>
          cases front with
          | declaration d =>
              rw [flattenBody] at h
              rcases List.mem_cons.mp he with rfl | he
              · cases hrule
              · exact ih h he
          | _ => cases hdecl
      | false =>
          rw [flattenBody_cons hdecl] at h
          obtain ⟨first, hfirst, h⟩ := Outcome.ok_of_bind h
          obtain ⟨others, hothers, h⟩ := Outcome.ok_of_bind h
          cases h
          rcases List.mem_cons.mp he with rfl | he
          · exact ⟨first, hfirst, List.infix_append _ _ _⟩
          · obtain ⟨part, hpart, hwithin⟩ := ih hothers he
            exact ⟨part, hpart, hwithin.trans (List.suffix_append _ _).isInfix⟩

/-- The flat rules stand among the others, or in a body of one of them at some depth. -/
inductive Among (inner : List Flat) : List Flat → Prop
  | run {flats : List Flat} : inner <:+: flats → Among inner flats
  | inside {flats body : List Flat} {head : List Char} :
      Among inner body → .group head body ∈ flats → Among inner flats

theorem Among.trans {xs ys zs : List Flat} (hxy : Among xs ys) (hyz : Among ys zs) :
    Among xs zs := by
  induction hyz with
  | run hwithin =>
      cases hxy with
      | run hinner => exact .run (hinner.trans hwithin)
      | inside hinner hmem => exact .inside hinner (hwithin.subset hmem)
  | inside _ hmem ih => exact .inside ih hmem

/-- Laying an entry flat lays each rule that it visits flat, in the selectors that it is visited in. -/
theorem Visits.exists_among {minify : Bool} {top e : Entry} {parents : List (List Char)}
    (h : Visits minify top parents e) (hrule : e.isDeclaration = false) {flats : List Flat}
    (hflats : flatten minify [] top = .ok flats) :
    ∃ part, flatten minify parents e = .ok part ∧ Among part flats := by
  induction h with
  | top => exact ⟨flats, hflats, .run List.infix_rfl⟩
  | @style parents prelude list body e _ hmem ih =>
      obtain ⟨around, haround, hamong⟩ := ih rfl
      rw [flatten] at haround
      split at haround
      · cases haround
      · obtain ⟨nested, hnested, haround⟩ := Outcome.ok_of_bind haround
        have hwithin : nested <:+: around := by
          split at haround
          · cases haround
            exact List.infix_rfl
          · cases haround
            exact (List.suffix_cons _ _).isInfix
        obtain ⟨part, he, hpart⟩ := exists_infix_of_flattenRules hnested hmem hrule
        exact ⟨part, he, .trans (.run (hpart.trans hwithin)) hamong⟩
  | @group parents name prelude opener body closer e _ hmem ih =>
      obtain ⟨around, haround, hamong⟩ := ih rfl
      rw [flatten] at haround
      split at haround
      · next hparents =>
          obtain ⟨inside, hinside, haround⟩ := Outcome.ok_of_bind haround
          cases haround
          obtain rfl := List.isEmpty_iff.mp hparents
          obtain ⟨part, he, hpart⟩ := exists_infix_of_flattenBody hinside hmem hrule
          exact ⟨part, he, .trans (.inside (.run hpart) (List.mem_singleton_self _)) hamong⟩
      · obtain ⟨nested, hnested, haround⟩ := Outcome.ok_of_bind haround
        cases haround
        obtain ⟨part, he, hpart⟩ := exists_infix_of_flattenRules hnested hmem hrule
        refine ⟨part, he, .trans (.inside (.run (hpart.trans ?_)) (List.mem_singleton_self _)) hamong⟩
        exact (List.suffix_append _ _).isInfix

/-- A flat rule that stands among others is one of them or stands in a body of one. -/
theorem Among.mem_or_inside {flat : Flat} {flats : List Flat} (h : Among [flat] flats) :
    flat ∈ flats ∨ ∃ head body, .group head body ∈ flats ∧ Among [flat] body := by
  cases h with
  | run hwithin => exact .inl ((List.singleton_infix_iff _ _).mp hwithin)
  | inside hinner hmem => exact .inr ⟨_, _, hmem, hinner⟩

theorem Among.of_mem {flat : Flat} {flats : List Flat} (h : flat ∈ flats) :
    Among [flat] flats :=
  .run ((List.singleton_infix_iff _ _).mpr h)

theorem Among.append {flat : Flat} {xs ys : List Flat} (h : Among [flat] (xs ++ ys)) :
    Among [flat] xs ∨ Among [flat] ys := by
  rcases h.mem_or_inside with hmem | ⟨head, body, hmem, hinside⟩
  · exact (List.mem_append.mp hmem).imp .of_mem .of_mem
  · exact (List.mem_append.mp hmem).imp (.inside hinside) (.inside hinside)

section Rules

variable {minify : Bool} {parents : List (List Char)} {head : List Char} {decls : List Declaration}

theorem Among.rule {head' : List Char} {decls' : List Declaration}
    (h : Among [.rule head decls] [.rule head' decls']) :
    Flat.rule head decls = .rule head' decls' := by
  rcases h.mem_or_inside with hmem | ⟨_, _, hmem, -⟩
  · exact List.mem_singleton.mp hmem
  · cases List.mem_singleton.mp hmem

theorem Among.group {head' : List Char} {body : List Flat}
    (h : Among [.rule head decls] [.group head' body]) :
    Among [.rule head decls] body := by
  rcases h.mem_or_inside with hmem | ⟨_, _, hmem, hinside⟩
  · cases List.mem_singleton.mp hmem
  · cases List.mem_singleton.mp hmem
    exact hinside

theorem not_among_run (run : List Declaration) (last : Bool) :
    ¬ Among [.rule head decls] (if run.isEmpty then [] else [.declarations run.reverse last]) := by
  intro h
  split at h
  · rcases h.mem_or_inside with hmem | ⟨_, _, hmem, -⟩ <;> cases hmem
  · rcases h.mem_or_inside with hmem | ⟨_, _, hmem, -⟩ <;> cases List.mem_singleton.mp hmem

/-- What comes of the rules of a body comes of one of them. -/
theorem exists_of_among_flattenRules {body : List Entry} {flats : List Flat}
    (h : flattenRules minify parents body = .ok flats) {flat : Flat} (hamong : Among [flat] flats) :
    ∃ e ∈ body, ∃ part, flatten minify parents e = .ok part ∧ Among [flat] part := by
  rw [flattenRules_eq] at h
  obtain ⟨parts, hparts, rfl⟩ := Outcome.ok_of_map h
  have hpart : ∃ part ∈ parts, Among [flat] part := by
    rcases hamong.mem_or_inside with hmem | ⟨head, body, hmem, hinside⟩
    · obtain ⟨part, hpart, hmem⟩ := List.mem_flatten.mp hmem
      exact ⟨part, hpart, .of_mem hmem⟩
    · obtain ⟨part, hpart, hmem⟩ := List.mem_flatten.mp hmem
      exact ⟨part, hpart, .inside hinside hmem⟩
  obtain ⟨part, hpart, hwithin⟩ := hpart
  obtain ⟨e, he, hlaid⟩ := Outcome.exists_of_mem_mapM hparts hpart
  exact ⟨e, (mem_rulesOf.mp he).1, part, hlaid, hwithin⟩

/-- So it is in the body of an at-rule at the top level, for nothing else in it has a prelude. -/
theorem exists_of_among_flattenBody {run : List Declaration} {body : List Entry}
    {flats : List Flat} (h : flattenBody minify run body = .ok flats)
    (hamong : Among [.rule head decls] flats) :
    ∃ e ∈ body, ∃ part, flatten minify [] e = .ok part ∧ Among [.rule head decls] part := by
  induction body generalizing run flats with
  | nil =>
      rw [flattenBody] at h
      cases h
      exact absurd hamong (not_among_run run true)
  | cons front rest ih =>
      have hbehind {run : List Declaration} {flats : List Flat}
          (h : flattenBody minify run rest = .ok flats) (hamong : Among [.rule head decls] flats) :=
        (ih h hamong).imp fun e => And.imp_left (List.mem_cons_of_mem front)
      cases hdecl : front.isDeclaration with
      | true =>
          cases front with
          | declaration d =>
              rw [flattenBody] at h
              exact hbehind h hamong
          | _ => cases hdecl
      | false =>
          rw [flattenBody_cons hdecl] at h
          obtain ⟨first, hfirst, h⟩ := Outcome.ok_of_bind h
          obtain ⟨others, hothers, h⟩ := Outcome.ok_of_bind h
          cases h
          rcases hamong.append with hamong | hamong
          · have hwithin := hamong.append.resolve_left (not_among_run run false)
            exact ⟨front, List.mem_cons_self, first, hfirst, hwithin⟩
          · exact hbehind hothers hamong

/-- The rule that laying an entry flat in the selectors gives for the declarations of its body. -/
def ownRule? (minify : Bool) (parents : List (List Char)) : Entry → Option Flat
  | .style _ list body =>
    some (.rule (joinSelectors minify (resolveSelectors minify parents list)) (declarationsOf body))
  | .group _ _ _ body _ => some (.rule (joinSelectors minify parents) (declarationsOf body))
  | .keyframe prelude _ body _ => some (.rule (valuesText minify prelude) (declarationsOf body))
  | _ => none

theorem flatten_style_cases {prelude : List Value} {list : SelectorList} {body : List Entry}
    {flats : List Flat} (h : flatten minify parents (.style prelude list body) = .ok flats)
    (hamong : Among [.rule head decls] flats) :
    ownRule? minify parents (.style prelude list body) = some (.rule head decls) ∨
      ∃ e ∈ body, ∃ part, flatten minify (resolveSelectors minify parents list) e = .ok part ∧
        Among [.rule head decls] part := by
  rw [flatten] at h
  split at h
  · cases h
  · obtain ⟨nested, hnested, h⟩ := Outcome.ok_of_bind h
    split at h
    · cases h
      exact .inr (exists_of_among_flattenRules hnested hamong)
    · cases h
      have hfront : Among [.rule head decls] ([.rule _ _] ++ nested) := hamong
      rcases hfront.append with hamong | hamong
      · exact .inl (congrArg some hamong.rule.symm)
      · exact .inr (exists_of_among_flattenRules hnested hamong)

theorem flatten_group_cases {name : Token} {prelude : List Value} {opener : Token}
    {body : List Entry} {closer : Option Token} {flats : List Flat}
    (h : flatten minify parents (.group name prelude opener body closer) = .ok flats)
    (hamong : Among [.rule head decls] flats) :
    ownRule? minify parents (.group name prelude opener body closer) = some (.rule head decls) ∨
      ∃ e ∈ body, ∃ part, flatten minify parents e = .ok part ∧ Among [.rule head decls] part := by
  rw [flatten] at h
  split at h
  · next hparents =>
      obtain ⟨inside, hinside, h⟩ := Outcome.ok_of_bind h
      cases h
      obtain rfl := List.isEmpty_iff.mp hparents
      exact .inr (exists_of_among_flattenBody hinside hamong.group)
  · obtain ⟨nested, hnested, h⟩ := Outcome.ok_of_bind h
    cases h
    rcases hamong.group.append with hamong | hamong
    · split at hamong
      · rcases hamong.mem_or_inside with hmem | ⟨_, _, hmem, -⟩ <;> cases hmem
      · exact .inl (congrArg some hamong.rule.symm)
    · exact .inr (exists_of_among_flattenRules hnested hamong)

/-- Only entries that are visited are laid flat, in the selectors that they are visited in: each flat
rule with a prelude and declarations is the own one of such an entry. -/
theorem Visits.exists_of_among {top e : Entry} (h : Visits minify top parents e)
    {flats : List Flat} (hflats : flatten minify parents e = .ok flats)
    (hamong : Among [.rule head decls] flats) :
    ∃ selectors origin, Visits minify top selectors origin ∧
      ownRule? minify selectors origin = some (.rule head decls) := by
  induction e using Entry.induction_body generalizing parents flats with
  | h e ih =>
      cases e with
      | declaration | loose =>
          rw [flatten] at hflats
          · cases hflats
          all_goals
            intros
            contradiction
      | statement name prelude =>
          rw [flatten] at hflats
          cases hflats
          rcases hamong.mem_or_inside with hmem | ⟨_, _, hmem, -⟩ <;>
            cases List.mem_singleton.mp hmem
      | style prelude list body =>
          obtain hown | ⟨x, hx, part, hpart, hwithin⟩ := flatten_style_cases hflats hamong
          · exact ⟨parents, _, h, hown⟩
          · exact ih x hx (.style h hx) hpart hwithin
      | group name prelude opener body closer =>
          obtain hown | ⟨x, hx, part, hpart, hwithin⟩ := flatten_group_cases hflats hamong
          · exact ⟨parents, _, h, hown⟩
          · exact ih x hx (.group h hx) hpart hwithin
      | keyframe prelude opener body closer =>
          rw [flatten] at hflats
          split at hflats
          · cases hflats
          · cases hflats
            exact ⟨parents, _, h, congrArg some hamong.rule.symm⟩

end Rules

/-- From an entry that has its shape only such are visited, inside selectors that have texts. -/
theorem Visits.sound {minify : Bool} {top e : Entry} {parents : List (List Char)}
    (h : Visits minify top parents e) (htop : top.Shaped (ComplexSelector.Solid IsSpelled) false) :
    (∀ p ∈ parents, p ≠ []) ∧
      ∃ inKeyframes, e.Shaped (ComplexSelector.Solid IsSpelled) inKeyframes := by
  induction h with
  | top => exact ⟨nofun, false, htop⟩
  | style _ hmem ih =>
      obtain ⟨hparents, _, hshaped⟩ := ih
      cases hshaped with
      | style hlist hbody => exact ⟨resolveSelectors_ne_nil hparents hlist, _, hbody _ hmem⟩
  | group _ hmem ih =>
      obtain ⟨hparents, _, hshaped⟩ := ih
      cases hshaped with
      | group hbody => exact ⟨hparents, _, hbody _ hmem⟩

end Output

/-! ## Stylesheets -/

theorem Lexer.Covers.isSpelled {before rest : List Char} {tokens : List Token}
    (h : Covers before rest tokens) :
    ∀ t ∈ tokens, Output.IsSpelled t := by
  induction h with
  | eof => exact List.forall_mem_singleton.mpr nofun
  | token _ _ hlexeme _ ih =>
      refine List.forall_mem_cons.mpr ⟨?_, ih⟩
      cases hlexeme with
      | ident hname => simpa [Output.IsSpelled] using hname.ne_nil
      | address =>
          intro htype
          dsimp only at htype
          split at htype <;> cases htype
      | string =>
          intro htype
          dsimp only at htype
          split at htype <;> cases htype
      | punctuation hmem =>
          have hall : ∀ d ∈ Output.punctuation, d.2 ≠ .ident := by decide
          exact fun htype => absurd htype (hall _ hmem)
      | _ => exact nofun

namespace Sheet

theorem shaped_of_ok {P : Token → Prop} (hP : AliasClosed P) {ts : List Token}
    (hts : ∀ t ∈ ts, P t) (hend : ∃ t ∈ ts, t.type = .eof) {budget : Nat} {limits : Limits}
    {file : String} {sheet : Sheet} (h : (parseTokens budget limits file ts).1 = .ok sheet) :
    ∀ e ∈ sheet.rules, Read.ShapedRule P false e := by
  have hsafe := safe_ruleList hP hts hend budget limits
  unfold parseTokens run at h
  cases hrun : Read.ruleList budget [] (.ofTokens ts limits) with
  | ok rules s =>
      rw [hrun] at h hsafe
      cases h
      exact hsafe.2
  | error stop s =>
      rw [hrun] at h
      cases h

theorem fails_formatRules {style : Style} {rules : List Entry} :
    Output.Fails (formatRules style rules) ↔
      ∃ e ∈ rules, Output.Fails (Output.flatten style.minify [] e) :=
  Output.fails_map.trans Output.fails_mapM

/-- In every style, the rules of a stylesheet that has been read cannot be written iff a keyframe of
a keyframes rule holds an entry other than a declaration; otherwise they have a text.  Wherever
writing comes to a style rule, no selector around it has an empty text, and neither has what a
reference to the parent stands for. -/
theorem formatRules_error_iff {budget : Nat} {limits : Limits} {file source : String}
    {sheet : Sheet} (h : (parseTokens budget limits file (tokenize source)).1 = .ok sheet)
    (style : Style) :
    ((∃ m, formatRules style sheet.rules = .error m) ↔
      ∃ top ∈ sheet.rules, top.HasMixedKeyframesRule) ∧
    ((∃ text, formatRules style sheet.rules = .ok text) ↔
      ¬ ∃ top ∈ sheet.rules, top.HasMixedKeyframesRule) ∧
    ∀ top ∈ sheet.rules, ∀ parents prelude list body,
      Output.Visits style.minify top parents (.style prelude list body) →
        (∀ p ∈ parents, p ≠ []) ∧
          ∀ s ∈ list, s.hasNesting = true → Output.referenceText style.minify parents s ≠ [] := by
  have hshaped := shaped_of_ok Output.aliasClosed_isSpelled (Lexer.covers_tokenize source).isSpelled
    (Lexer.exists_eof source) h
  have hfails : Output.Fails (formatRules style sheet.rules) ↔
      ∃ top ∈ sheet.rules, top.HasMixedKeyframesRule := by
    rw [fails_formatRules]
    refine exists_congr fun e => and_congr_right fun he => ?_
    have hrule := hshaped e he
    rw [Output.fails_flatten hrule.shaped hrule.isRule, hrule.shaped.hasMixedKeyframe_iff_rule]
  refine ⟨hfails, ?_, fun top htop parents prelude list body hvisits => ?_⟩
  · rw [← hfails, Output.not_fails_iff]
  · have hparents := (hvisits.sound (hshaped top htop).shaped).1
    exact ⟨hparents, fun s _ hnesting => Output.referenceText_ne_nil hparents hnesting⟩

/-- A keyframe with a style rule in it. -/
def nestedFrame : String :=
  "@keyframes k\x7bfrom\x7b&\x7b\x7d\x7d\x7d"

/-- A style rule with a reference to its parent behind another condition. -/
def nestedReference : String :=
  "a\x7b&.b&\x7b\x7d\x7d"

theorem formatRules_error_nestedFrame :
    (∃ sheet, (parse {} "" nestedFrame).1 = .ok sheet ∧
      ∃ m, formatRules {} sheet.rules = .error m) ∧
    ∃ sheet, (parse {} "" nestedReference).1 = .ok sheet ∧
      (∃ text, formatRules {} sheet.rules = .ok text) ∧
      ∃ top ∈ sheet.rules, ∃ parents prelude list body,
        Output.Visits false top parents (.style prelude list body) ∧ parents ≠ [] ∧
          ∃ s ∈ list, s.hasNesting = true ∧ Output.referenceText false parents s ≠ [] := by
  constructor
  · obtain ⟨outcome, h⟩ : ∃ outcome, (parse {} "" nestedFrame).1 = outcome := ⟨_, rfl⟩
    have houtcome := h
    cbv at houtcome
    subst houtcome
    refine ⟨_, h, (formatRules_error_iff h {}).1.mpr ⟨_, List.mem_singleton_self _, ?_⟩⟩
    refine ⟨_, _, _, _, _, .self, by cbv, _, List.mem_singleton_self _, ?_⟩
    exact ⟨_, List.mem_singleton_self _, rfl⟩
  · obtain ⟨outcome, h⟩ : ∃ outcome, (parse {} "" nestedReference).1 = outcome := ⟨_, rfl⟩
    have houtcome := h
    cbv at houtcome
    subst houtcome
    obtain ⟨-, hwritten, hparents⟩ := formatRules_error_iff h {}
    refine ⟨_, h, hwritten.mpr ?_, ?_⟩
    · rintro ⟨top, htop, _, _, _, _, _, hpart, -⟩
      obtain rfl := List.mem_singleton.mp htop
      cases hpart with
      | inside hpart hmem =>
          obtain rfl := List.mem_singleton.mp hmem
          cases hpart with
          | inside hpart hmem => cases hmem
    · refine ⟨_, List.mem_singleton_self _, _, _, _, _, .style .top (List.mem_singleton_self _),
        List.cons_ne_nil _ _, _, List.mem_singleton_self _, rfl, ?_⟩
      exact (hparents _ (List.mem_singleton_self _) _ _ _ _
        (.style .top (List.mem_singleton_self _))).2 _ (List.mem_singleton_self _) rfl

end Sheet
end Cascade
